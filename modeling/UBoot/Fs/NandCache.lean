import UBoot.Lib.Align

namespace UBoot.Fs.NandCache

open Lib.Align

def nandPageMask : UInt32 := ~~~511

def nandCacheSize : UInt32 := 8192

/-- What `malloc` and `nand_read` do; a read that fails may leave any bytes. -/
structure Reply where
  malloc : Bool
  read : Bool
  junk : UInt32 → UInt8

/-- The bytes of `nand_info[num]`, the replies in their order, and the bytes at `NULL`. -/
structure Env where
  nand : ℕ → UInt32 → UInt8
  reply : ℕ → Reply
  null : UInt32 → UInt8

/-- An attempt to fill the cache from a device. -/
structure Fetch where
  num : ℕ
  ok : Bool
deriving DecidableEq

/-- The two variables of the cache, and the attempts to fill it, the last one first. -/
structure Cache where
  nandCache : Option (UInt32 → UInt8)
  nandCacheOff : UInt32
  fetches : List Fetch

def Cache.init : Cache := ⟨none, 0xffffffff, []⟩

/-- A call, with the number of the device of `current_part`. -/
structure Call where
  num : ℕ
  off : UInt32
  size : UInt32

/-- The byte is not in the recorded window. -/
def Cache.misses (s : Cache) (pos : UInt32) : Bool :=
  pos < s.nandCacheOff ∨ pos ≥ s.nandCacheOff + nandCacheSize

section Read

variable (env : Env)

/-- The window is recorded before it is read. -/
def fetch (num : ℕ) (s : Cache) (pos : UInt32) : Bool × Cache :=
  let reply := env.reply s.fetches.length
  let off := pos &&& nandPageMask
  if s.nandCache.isNone ∧ ¬ reply.malloc then (false, ⟨none, off, ⟨num, false⟩ :: s.fetches⟩)
  else if reply.read then
    (true, ⟨some fun i ↦ env.nand num (off + i), off, ⟨num, true⟩ :: s.fetches⟩)
  else (false, ⟨some reply.junk, off, ⟨num, false⟩ :: s.fetches⟩)

/-- The window for a byte. -/
def window (num : ℕ) (s : Cache) (pos : UInt32) : Bool × Cache :=
  if s.misses pos then fetch env num s pos else (true, s)

/-- `cpy_bytes` -/
def cpyBytes (s : Cache) (pos rest : UInt32) : UInt32 :=
  let left := s.nandCacheOff + nandCacheSize - pos
  if left > rest then rest else left

/-- The loop of `read_nand_cached`; `none` is the return of -1. -/
def readLoop (num : ℕ) (off size : UInt32) :
    ℕ → UInt32 → List UInt8 → Cache → Option (List UInt8) × Cache
  | 0, _, _, s => (none, s)
  | fuel + 1, bytesRead, buf, s =>
    if bytesRead < size then
      let pos := off + bytesRead
      let (ok, s) := window env num s pos
      if ok then
        let n := cpyBytes s pos (size - bytesRead)
        let copied := (List.range n.toNat).map fun i ↦
          s.nandCache.getD env.null (pos - s.nandCacheOff + UInt32.ofNat i)
        readLoop num off size fuel (bytesRead + n) (buf ++ copied) s
      else (none, s)
    else (some buf, s)

def readNandCached (s : Cache) (call : Call) : Option (List UInt8) × Cache :=
  readLoop env call.num call.off call.size (call.size.toNat + 1) 0 [] s

/-- The calls of a run, each with the state before it. -/
def turns : Cache → List Call → List (Cache × Call)
  | _, [] => []
  | s, call :: calls => (s, call) :: turns (readNandCached env s call).2 calls

/-- Bytes of a device. -/
def deviceBytes (num : ℕ) (off : UInt32) (n : ℕ) : List UInt8 :=
  (List.range n).map fun i ↦ env.nand num (off + UInt32.ofNat i)

/-- The last attempt to fill the cache, if there was one. -/
def Cache.Filled (s : Cache) (num : ℕ) (ok : Bool) : Prop := s.fetches.head? = some ⟨num, ok⟩

instance (s : Cache) (num : ℕ) (ok : Bool) : Decidable (s.Filled num ok) :=
  inferInstanceAs (Decidable (_ = _))

/-- A call that does not fail has the bytes of its device, and it fails only when a read did. -/
def Transparent (s : Cache) (call : Call) : Prop :=
  (∀ buf, (readNandCached env s call).1 = some buf →
      buf = deviceBytes env call.num call.off call.size.toNat) ∧
    ((readNandCached env s call).1 = none → (readNandCached env s call).2.Filled call.num false)

/-- A first byte in the recorded window was read there, and from the same device. -/
def Served (s : Cache) (call : Call) : Prop :=
  0 < call.size → s.misses call.off = false → s.Filled call.num true

/-- After a read that succeeded the cache has the bytes of the window. -/
def Sound (s : Cache) : Prop :=
  ∀ num, s.Filled num true →
    s.nandCache = some fun i ↦ env.nand num (s.nandCacheOff + i)

variable {env} {num : ℕ} {off size : UInt32} {s : Cache}

theorem deviceBytes_add (num : ℕ) (off b : UInt32) (n : ℕ) :
    deviceBytes env num off b.toNat ++ deviceBytes env num (off + b) n =
      deviceBytes env num off (b.toNat + n) := by
  rw [deviceBytes, deviceBytes, deviceBytes, List.range_add, List.map_append, List.map_map]
  congr 1
  apply List.map_congr_left
  intro i _
  rw [Function.comp_apply, UInt32.ofNat_add, UInt32.ofNat_toNat, UInt32.add_assoc]

theorem left_ne_zero_of_hit {pos : UInt32} (h : s.misses pos = false) :
    s.nandCacheOff + nandCacheSize - pos ≠ 0 := by
  rw [Cache.misses, decide_eq_false_iff_not, not_or] at h
  have hlt := UInt32.not_le.mp h.2
  intro hzero
  have heq : s.nandCacheOff + nandCacheSize = pos := by grind
  rw [heq] at hlt
  exact UInt32.lt_irrefl _ hlt

theorem left_ne_zero_of_fetch (pos : UInt32) :
    (pos &&& nandPageMask) + nandCacheSize - pos ≠ 0 := by
  have hpage : pos - (pos &&& nandPageMask) = pos &&& 511 := sub_and_not pos 511
  have hsmall := and_pred_toNat pos (k := 9) (m := 511) rfl
  intro hzero
  have heq : pos &&& 511 = nandCacheSize := by grind
  rw [heq] at hsmall
  have hsize : nandCacheSize.toNat = 8192 := rfl
  omega

/-- What one attempt to fill the cache does. -/
theorem fetch_cases (env : Env) (num : ℕ) (s : Cache) (pos : UInt32) :
    (fetch env num s pos).1 = true ∧
        (fetch env num s pos).2 = ⟨some fun i ↦ env.nand num ((pos &&& nandPageMask) + i),
          pos &&& nandPageMask, ⟨num, true⟩ :: s.fetches⟩ ∨
      (fetch env num s pos).1 = false ∧ (fetch env num s pos).2.Filled num false := by
  rw [fetch]
  split_ifs
  · exact Or.inr ⟨rfl, rfl⟩
  · exact Or.inl ⟨rfl, rfl⟩
  · exact Or.inr ⟨rfl, rfl⟩

theorem sound_of_failed (h : s.Filled num false) : Sound env s := by
  intro num' h'
  rw [Cache.Filled] at h h'
  rw [h] at h'
  cases h'

/-- In its window a byte is in the cache, and the window does not end in front of it. -/
theorem window_spec (hsound : Sound env s) {pos : UInt32}
    (hserved : s.misses pos = false → s.Filled num true) :
    (∃ s', window env num s pos = (false, s') ∧ s'.Filled num false) ∨
      ∃ s', window env num s pos = (true, s') ∧ Sound env s' ∧ s'.Filled num true ∧
        s'.nandCacheOff + nandCacheSize - pos ≠ 0 := by
  rw [window]
  cases hmisses : s.misses pos with
  | false => exact Or.inr ⟨s, rfl, hsound, hserved hmisses, left_ne_zero_of_hit hmisses⟩
  | true =>
    simp only [if_true]
    rcases fetch_cases env num s pos with ⟨hok, hs⟩ | ⟨hfailed, hs⟩
    · refine Or.inr ⟨_, Prod.ext hok hs, ?_, rfl, left_ne_zero_of_fetch pos⟩
      intro num' h
      cases h
      rfl
    · exact Or.inl ⟨_, Prod.ext hfailed rfl, hs⟩

/-- What the loop may end with. -/
def Outcome (env : Env) (num : ℕ) (off size : UInt32) (r : Option (List UInt8) × Cache) : Prop :=
  Sound env r.2 ∧
    (r.1 = some (deviceBytes env num off size.toNat) ∨ r.1 = none ∧ r.2.Filled num false)

theorem cpyBytes_spec {pos rest : UInt32} (hleft : s.nandCacheOff + nandCacheSize - pos ≠ 0)
    (hrest : rest ≠ 0) : cpyBytes s pos rest ≠ 0 ∧ cpyBytes s pos rest ≤ rest := by
  rw [cpyBytes]
  split_ifs with hlt
  · exact ⟨hrest, UInt32.le_refl rest⟩
  · exact ⟨hleft, UInt32.not_lt.mp hlt⟩

theorem readLoop_outcome {fuel : ℕ} {b : UInt32} (hsound : Sound env s) (hb : b ≤ size)
    (hfuel : size.toNat - b.toNat < fuel)
    (hserved : b < size → s.misses (off + b) = false → s.Filled num true) :
    Outcome env num off size
      (readLoop env num off size fuel b (deviceBytes env num off b.toNat) s) := by
  induction fuel generalizing b s with
  | zero => exact absurd hfuel (Nat.not_lt_zero _)
  | succ fuel ih =>
    rw [readLoop]
    split_ifs with hlt
    · rcases window_spec hsound (hserved hlt) with
        ⟨s', hwindow, hfailed⟩ | ⟨s', hwindow, hsound', hfilled, hleft⟩
      · simp only [hwindow]
        exact ⟨sound_of_failed hfailed, Or.inr ⟨rfl, hfailed⟩⟩
      · simp only [hwindow, if_true, hsound' num hfilled, Option.getD_some]
        have hlt' := UInt32.lt_iff_toNat_lt.mp hlt
        have hrest : (size - b).toNat = size.toNat - b.toNat :=
          UInt32.toNat_sub_of_le size b (UInt32.le_of_lt hlt)
        have hne : size - b ≠ 0 := by
          intro hzero
          rw [hzero] at hrest
          have hzero' : (0 : UInt32).toNat = 0 := rfl
          omega
        obtain ⟨hpos, hle⟩ := cpyBytes_spec hleft hne
        generalize cpyBytes s' (off + b) (size - b) = n at hpos hle ⊢
        have hn := UInt32.le_iff_toNat_le.mp hle
        have hpos' : n.toNat ≠ 0 := fun hzero ↦ hpos (UInt32.toNat_inj.mp hzero)
        have hsum : (b + n).toNat = b.toNat + n.toNat := by
          have hsize := size.toNat_lt
          rw [UInt32.toNat_add]
          omega
        have hcopied : ((List.range n.toNat).map fun i ↦ env.nand num
            (s'.nandCacheOff + (off + b - s'.nandCacheOff + UInt32.ofNat i))) =
              deviceBytes env num (off + b) n.toNat := by
          apply List.map_congr_left
          intro i _
          congr 1
          grind
        rw [hcopied, deviceBytes_add, ← hsum]
        apply ih hsound'
        · rw [UInt32.le_iff_toNat_le]
          omega
        · omega
        · exact fun _ _ ↦ hfilled
    · have heq : b = size := UInt32.le_antisymm hb (UInt32.not_lt.mp hlt)
      rw [heq]
      exact ⟨hsound, Or.inl rfl⟩

theorem readNandCached_outcome {call : Call} (hsound : Sound env s) (hserved : Served s call) :
    Outcome env call.num call.off call.size (readNandCached env s call) := by
  have hzero : call.off + 0 = call.off := by grind
  apply readLoop_outcome (b := 0) hsound
  · exact UInt32.zero_le
  · omega
  · rw [hzero]
    exact hserved

theorem sound_init : Sound env .init := by
  intro num h
  cases h

theorem turns_transparent (hsound : Sound env s) {calls : List Call}
    (hserved : ∀ turn ∈ turns env s calls, Served turn.1 turn.2) :
    ∀ turn ∈ turns env s calls, Transparent env turn.1 turn.2 := by
  induction calls generalizing s with
  | nil => exact List.forall_mem_nil _
  | cons call calls ih =>
    obtain ⟨hserved, hrest⟩ := List.forall_mem_cons.mp hserved
    obtain ⟨hsound', hresult⟩ := readNandCached_outcome hsound hserved
    refine List.forall_mem_cons.mpr ⟨⟨fun buf hbuf ↦ ?_, fun hnone ↦ ?_⟩, ih hsound' hrest⟩
    · rcases hresult with heq | ⟨hnone, -⟩
      · exact Option.some.inj (hbuf.symm.trans heq)
      · rw [hnone] at hbuf
        cases hbuf
    · rcases hresult with heq | ⟨-, hfailed⟩
      · rw [hnone] at heq
        cases heq
      · exact hfailed

/-- The variables of the cache do not say whether and from where its window was read, but where each
hit is on a window that was, the reads are those of the devices. -/
theorem read_nand_cached_transparent (env : Env) (calls : List Call)
    (h : ∀ turn ∈ turns env .init calls, Served turn.1 turn.2) :
    ∀ turn ∈ turns env .init calls, Transparent env turn.1 turn.2 :=
  turns_transparent sound_init h

/-- All devices have these bytes, and the reads after the first `n` succeed. -/
def failsFirst (n : ℕ) : Env where
  nand _ off := off.toUInt8 + 1
  reply k := ⟨true, n ≤ k, fun _ ↦ 0⟩
  null _ := 0

theorem read_nand_cached_transparent_twice :
    (∀ turn ∈ turns (failsFirst 0) .init [⟨0, 0, 2⟩, ⟨0, 1, 2⟩], Served turn.1 turn.2) ∧
      ∀ turn ∈ turns (failsFirst 0) .init [⟨0, 0, 2⟩, ⟨0, 1, 2⟩],
        Transparent (failsFirst 0) turn.1 turn.2 := by
  have hserved : ∀ turn ∈ turns (failsFirst 0) .init [⟨0, 0, 2⟩, ⟨0, 1, 2⟩],
      Served turn.1 turn.2 := by
    rw [turns, turns, turns]
    refine List.forall_mem_cons.mpr ⟨?_, List.forall_mem_cons.mpr ⟨?_, List.forall_mem_nil _⟩⟩
    · intro _ hhit
      exact absurd hhit (by decide)
    · intro _ _
      decide
  exact ⟨hserved, read_nand_cached_transparent (failsFirst 0) _ hserved⟩

theorem read_nand_cached_serves_failed :
    ¬ ∀ turn ∈ turns (failsFirst 1) .init [⟨0, 0, 2⟩, ⟨0, 0, 2⟩],
      Transparent (failsFirst 1) turn.1 turn.2 := by
  intro h
  have hread : (readNandCached (failsFirst 1) (readNandCached (failsFirst 1) .init ⟨0, 0, 2⟩).2
      ⟨0, 0, 2⟩).1 = some [0, 0] := by decide
  rw [turns, turns, turns] at h
  have hbytes := (h _ (List.mem_cons_of_mem _ List.mem_cons_self)).1 _ hread
  exact absurd hbytes (by decide)

end Read

end UBoot.Fs.NandCache
