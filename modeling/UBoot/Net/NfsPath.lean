import Mathlib.Data.List.DropRight
import UBoot.Net.Nfs

namespace UBoot.Net.NfsPath

open Lib.CString LibGeneric.Vsprintf Nfs

def slash : UInt8 := 0x2f

/-- The path in front of the last slash. -/
def dirOf (path : CStr) : CStr := (path.rdropWhile (· != slash)).dropLast

/-- The path behind the last slash. -/
def fileOf (path : CStr) : CStr := path.rtakeWhile (· != slash)

/-- The loop of `basename` with `fname` at the last of `k` bytes of the path, and behind it the
distance of the result from `path`. `none` is an access outside the buffer. -/
def basenameLoop (buff : List UInt8) : ℕ → Option ℤ
  | 0 => some (-1)
  | k + 1 => do
    let c ← buff[k]?
    if c = slash then some (k + 1) else basenameLoop buff k

def basenamePtr (buff : List UInt8) : Option ℤ := do
  let n ← strlen buff
  basenameLoop buff n

def dirnamePtr (buff : List UInt8) : Option (List UInt8) := do
  let fname ← basenamePtr buff
  if 0 ≤ fname - 1 then poke buff (fname - 1).toNat 0 else none

/-- The end of `NfsStart`: the buffer and `nfs_filename`. -/
def splitPathPtr (buff : List UInt8) : Option (List UInt8 × ℤ) := do
  let fname ← basenamePtr buff
  let buff ← dirnamePtr buff
  return (buff, fname)

/-- `NfsStart` as far as the path. -/
def startPtr (bootFile : CStr) (netOurIP : ℕ) (buff : List UInt8) : Option (List UInt8 × ℤ) := do
  let (buff, _) ← store buff 0 (startPath bootFile netOurIP)
  splitPathPtr buff

section Components

variable {a b path : CStr}

theorem rtakeWhile_slash (a : CStr) (hb : slash ∉ b) :
    (a ++ slash :: b).rtakeWhile (· != slash) = b := by
  induction b using List.reverseRecOn with
  | nil => exact List.rtakeWhile_concat_neg _ _ _ (by decide)
  | append_singleton b x ih =>
    rw [List.mem_append, not_or, List.mem_singleton] at hb
    have hassoc : a ++ slash :: (b ++ [x]) = (a ++ slash :: b) ++ [x] := by simp
    have hx : (x != slash) = true := bne_iff_ne.mpr fun h ↦ hb.2 h.symm
    rw [hassoc, List.rtakeWhile_concat, if_pos hx, ih hb.1]

theorem rdropWhile_slash (a : CStr) (hb : slash ∉ b) :
    (a ++ slash :: b).rdropWhile (· != slash) = a ++ [slash] := by
  have happend := List.rdropWhile_append_rtakeWhile (p := (· != slash)) (l := a ++ slash :: b)
  rw [rtakeWhile_slash a hb] at happend
  have hcons : a ++ slash :: b = (a ++ [slash]) ++ b := by simp
  rw [hcons] at happend ⊢
  exact List.append_cancel_right happend

theorem dirOf_append (a : CStr) (hb : slash ∉ b) : dirOf (a ++ slash :: b) = a := by
  rw [dirOf, rdropWhile_slash a hb, List.dropLast_concat]

theorem fileOf_append (a : CStr) (hb : slash ∉ b) : fileOf (a ++ slash :: b) = b :=
  rtakeWhile_slash a hb

/-- A path with a slash in its two parts. -/
theorem exists_split (h : slash ∈ path) : ∃ a b, path = a ++ slash :: b ∧ slash ∉ b := by
  induction path using List.reverseRecOn with
  | nil => exact absurd h List.not_mem_nil
  | append_singleton path x ih =>
    by_cases hx : x = slash
    · exact ⟨path, [], by rw [hx], List.not_mem_nil⟩
    · have hmem : slash ∈ path := by
        rcases List.mem_append.mp h with h | h
        · exact h
        · exact absurd (List.mem_singleton.mp h).symm hx
      obtain ⟨a, b, rfl, hb⟩ := ih hmem
      refine ⟨a, b ++ [x], by simp, ?_⟩
      rw [List.mem_append, not_or, List.mem_singleton]
      exact ⟨hb, fun h ↦ hx h.symm⟩

theorem dirOf_append_fileOf (h : slash ∈ path) : dirOf path ++ slash :: fileOf path = path := by
  obtain ⟨a, b, rfl, hb⟩ := exists_split h
  rw [dirOf_append a hb, fileOf_append a hb]

end Components

section Split

variable {a b path rest buff : List UInt8}

/-- A string in a buffer with what stands behind it. -/
theorem exists_of_load (h : load buff = some path) :
    NulFree path ∧ ∃ rest, buff = path ++ 0 :: rest := by
  induction buff generalizing path with
  | nil => cases h
  | cons c buff ih =>
    rw [load, strlen] at h
    split_ifs at h with hc
    · cases h
      exact ⟨fun x hx ↦ absurd hx List.not_mem_nil, buff, by rw [hc]; rfl⟩
    · rw [Option.map_map] at h
      obtain ⟨n, hn, rfl⟩ := Option.map_eq_some_iff.mp h
      have htail : load buff = some (buff.take n) := by rw [load, hn, Option.map_some]
      obtain ⟨hfree, rest, hrest⟩ := ih htail
      refine ⟨List.forall_mem_cons.mpr ⟨hc, hfree⟩, rest, ?_⟩
      exact congrArg (c :: ·) hrest

/-- The loop stops behind the last slash. -/
theorem basenameLoop_append (a : List UInt8) (hb : slash ∉ b) (rest : List UInt8) :
    basenameLoop (a ++ slash :: (b ++ rest)) (a.length + 1 + b.length) =
      some ((a.length + 1 : ℕ) : ℤ) := by
  induction b using List.reverseRecOn generalizing rest with
  | nil =>
    rw [List.length_nil, Nat.add_zero, basenameLoop, List.nil_append, peek_append]
    rfl
  | append_singleton b x ih =>
    rw [List.mem_append, not_or, List.mem_singleton] at hb
    have hget : (a ++ slash :: (b ++ [x] ++ rest))[a.length + 1 + b.length]? = some x := by
      have hassoc : a ++ slash :: (b ++ [x] ++ rest) = (a ++ slash :: b) ++ x :: rest := by simp
      have hlen : (a ++ slash :: b).length = a.length + 1 + b.length := by
        rw [List.length_append, List.length_cons]
        omega
      rw [hassoc, ← hlen, peek_append]
    rw [List.length_append, List.length_singleton, ← Nat.add_assoc, basenameLoop, hget,
      Option.bind_eq_bind, Option.bind_some, if_neg fun h ↦ hb.2 h.symm, List.append_assoc]
    exact ih hb.1 _

theorem basenameLoop_noSlash (hpath : slash ∉ path) (rest : List UInt8) :
    basenameLoop (path ++ rest) path.length = some (-1) := by
  induction path using List.reverseRecOn generalizing rest with
  | nil => rfl
  | append_singleton path x ih =>
    rw [List.mem_append, not_or, List.mem_singleton] at hpath
    have hget : (path ++ [x] ++ rest)[path.length]? = some x := by
      rw [List.append_assoc, List.singleton_append, peek_append]
    rw [List.length_append, List.length_singleton, basenameLoop, hget, Option.bind_eq_bind,
      Option.bind_some, if_neg fun h ↦ hpath.2 h.symm, List.append_assoc]
    exact ih hpath.1 _

theorem splitPathPtr_append (hfree : NulFree (a ++ slash :: b)) (hb : slash ∉ b)
    (rest : List UInt8) :
    splitPathPtr ((a ++ slash :: b) ++ 0 :: rest) =
      some (a ++ 0 :: (b ++ 0 :: rest), ((a.length + 1 : ℕ) : ℤ)) := by
  have hassoc : (a ++ slash :: b) ++ 0 :: rest = a ++ slash :: (b ++ 0 :: rest) := by simp
  have hlen : (a ++ slash :: b).length = a.length + 1 + b.length := by
    rw [List.length_append, List.length_cons]
    omega
  have hname : basenamePtr ((a ++ slash :: b) ++ 0 :: rest) = some ((a.length + 1 : ℕ) : ℤ) := by
    rw [basenamePtr, strlen_append _ _ hfree, Option.bind_eq_bind, Option.bind_some, hlen, hassoc]
    exact basenameLoop_append a hb _
  have hback : ((a.length + 1 : ℕ) : ℤ) - 1 = a.length := by omega
  rw [splitPathPtr, dirnamePtr, hname]
  dsimp only [Option.bind_eq_bind, Option.bind_some]
  rw [hback, if_pos (Int.natCast_nonneg _), Int.toNat_natCast, hassoc, poke_append]
  rfl

/-- Without a slash the byte two in front of the path is cleared. -/
theorem splitPathPtr_noSlash (hfree : NulFree path) (hpath : slash ∉ path) (rest : List UInt8) :
    splitPathPtr (path ++ 0 :: rest) = none := by
  have hname : basenamePtr (path ++ 0 :: rest) = some (-1) := by
    rw [basenamePtr, strlen_append _ _ hfree]
    exact basenameLoop_noSlash hpath _
  rw [splitPathPtr, dirnamePtr, hname]
  rfl

theorem splitPath_append (hfree : NulFree (a ++ slash :: b)) (hb : slash ∉ b) (rest : List UInt8) :
    splitPath ((a ++ slash :: b) ++ 0 :: rest) =
      some (a ++ 0 :: (b ++ 0 :: rest), a.length + 1) := by
  have hassoc : (a ++ slash :: b) ++ 0 :: rest = a ++ slash :: (b ++ 0 :: rest) := by simp
  have hname : basename ((a ++ slash :: b) ++ 0 :: rest) = some (a.length + 1) := by
    have hfind : (a ++ slash :: b).reverse.findIdx? (· == 0x2f) = some b.length := by
      rw [List.reverse_append, List.reverse_cons, List.append_assoc, List.findIdx?_append]
      have hnone : b.reverse.findIdx? (· == 0x2f) = none := strchr_reverse_eq_none.mpr hb
      rw [hnone, Option.none_or, List.singleton_append, List.findIdx?_cons, if_pos (by decide),
        Option.map_some, List.length_reverse, Nat.zero_add]
    rw [basename, load_append _ _ hfree]
    dsimp only [Option.bind_eq_bind, Option.bind_some]
    rw [hfind, Option.bind_some, List.length_append, List.length_cons]
    exact congrArg some (by omega)
  rw [splitPath, hname, Option.bind_eq_bind, Option.bind_some, Nat.add_sub_cancel, hassoc,
    poke_append]
  rfl

theorem splitPath_noSlash (hfree : NulFree path) (hpath : slash ∉ path) (rest : List UInt8) :
    splitPath (path ++ 0 :: rest) = none := by
  have hfind : path.reverse.findIdx? (· == 0x2f) = none := strchr_reverse_eq_none.mpr hpath
  rw [splitPath, basename, load_append _ _ hfree]
  dsimp only [Option.bind_eq_bind, Option.bind_some]
  rw [hfind]
  rfl

/-- The pointers are the indices of `splitPath`. -/
theorem splitPathPtr_eq (buff : List UInt8) :
    splitPathPtr buff = (splitPath buff).map fun r ↦ (r.1, (r.2 : ℤ)) := by
  cases hload : load buff with
  | none =>
    have hlen : strlen buff = none := Option.map_eq_none_iff.mp hload
    rw [splitPathPtr, basenamePtr, hlen, splitPath, basename, hload]
    rfl
  | some path =>
    obtain ⟨hfree, rest, rfl⟩ := exists_of_load hload
    by_cases hpath : slash ∈ path
    · obtain ⟨a, b, rfl, hb⟩ := exists_split hpath
      rw [splitPathPtr_append hfree hb, splitPath_append hfree hb]
      rfl
    · rw [splitPathPtr_noSlash hfree hpath, splitPath_noSlash hfree hpath]
      rfl

end Split

section Start

variable {bootFile path : CStr} {buff : List UInt8}

theorem numberHex_two_nulFree {n : ℕ} (h : n < 256) :
    NulFree (numberHex 2 n) ∧ (numberHex 2 n).length = 2 := by
  have hdigit : ∀ d < 16, hexDigit d ≠ 0 := by decide
  rw [numberHex_two h]
  exact ⟨List.forall_mem_cons.mpr ⟨hdigit _ (by omega), List.forall_mem_singleton.mpr
    (hdigit _ (by omega))⟩, rfl⟩

theorem defaultFilename_spec (netOurIP : ℕ) : NulFree (defaultFilename netOurIP) ∧
    slash ∈ defaultFilename netOurIP ∧ (defaultFilename netOurIP).length < 128 := by
  have hpair (n : ℕ) := numberHex_two_nulFree (n := n % 256) (Nat.mod_lt _ (by decide))
  have hfront : NulFree (ascii "/nfsroot/") := by decide
  have hback : NulFree (ascii ".img") := by decide
  rw [defaultFilename]
  refine ⟨?_, ?_, ?_⟩
  · exact NulFree.append (NulFree.append (NulFree.append (NulFree.append (NulFree.append hfront
      (hpair _).1) (hpair _).1) (hpair _).1) (hpair _).1) hback
  · simp only [List.append_assoc]
    exact List.mem_append_left _ (by decide)
  · simp only [List.length_append, (hpair _).2]
    decide

theorem startPath_spec (hfree : NulFree bootFile) (hlen : bootFile.length < 128) (netOurIP : ℕ) :
    NulFree (startPath bootFile netOurIP) ∧ (startPath bootFile netOurIP).length < 128 := by
  rw [startPath]
  split_ifs
  · exact ⟨(defaultFilename_spec netOurIP).1, (defaultFilename_spec netOurIP).2.2⟩
  · have hsuffix : (bootFile.dropWhile (· != 0x3a)).drop 1 <:+ bootFile :=
      (List.drop_suffix _ _).trans (List.dropWhile_suffix _)
    exact ⟨fun c hc ↦ hfree c (hsuffix.mem hc), hsuffix.length_le.trans_lt hlen⟩
  · exact ⟨hfree, hlen⟩

/-- `NfsStart` keeps to the buffer and splits the path exactly when the path has a slash. -/
theorem nfs_start_splits_iff (netOurIP : ℕ) (hfree : NulFree bootFile)
    (hlen : bootFile.length < 128) (hbuff : buff.length = 2048) :
    (∃ buff' fname dir file, startPtr bootFile netOurIP buff = some (buff', fname) ∧
        load buff' = some dir ∧ 0 ≤ fname ∧ load (buff'.drop fname.toNat) = some file ∧
        (slash ∈ startPath bootFile netOurIP →
          dir ++ slash :: file = startPath bootFile netOurIP)) ↔
      slash ∈ startPath bootFile netOurIP := by
  obtain ⟨hpath, hpathLen⟩ := startPath_spec hfree hlen netOurIP
  generalize hp : startPath bootFile netOurIP = path at hpath hpathLen
  have hstore : store buff 0 path = some (path ++ 0 :: buff.drop (path.length + 1), path.length) := by
    have h := store_append [] buff path (by omega)
    rwa [List.nil_append, List.length_nil, Nat.zero_add, List.nil_append] at h
  rw [startPtr, hp, hstore, Option.bind_eq_bind, Option.bind_some]
  dsimp only
  by_cases hslash : slash ∈ path
  · refine iff_of_true ?_ hslash
    obtain ⟨a, b, rfl, hb⟩ := exists_split hslash
    have hfreeA : NulFree a := fun c hc ↦ hpath c (List.mem_append_left _ hc)
    have hfreeB : NulFree b := fun c hc ↦
      hpath c (List.mem_append_right _ (List.mem_cons_of_mem _ hc))
    rw [splitPathPtr_append hpath hb]
    refine ⟨_, _, a, b, rfl, load_append _ _ hfreeA, Int.natCast_nonneg _, ?_, fun _ ↦ rfl⟩
    have hcons (l : List UInt8) : a ++ 0 :: l = (a ++ [0]) ++ l := by simp
    rw [Int.toNat_natCast, hcons, List.drop_left' (by simp)]
    exact load_append _ _ hfreeB
  · refine iff_of_false ?_ hslash
    rw [splitPathPtr_noSlash hpath hslash]
    rintro ⟨buff', fname, dir, file, h, -⟩
    cases h

theorem nfs_start_splits_iff_default :
    (∃ buff' fname dir file,
        startPtr (ascii "/a/uImage") 0 (List.replicate 2048 0) = some (buff', fname) ∧
        load buff' = some dir ∧ 0 ≤ fname ∧ load (buff'.drop fname.toNat) = some file ∧
        (slash ∈ startPath (ascii "/a/uImage") 0 →
          dir ++ slash :: file = startPath (ascii "/a/uImage") 0)) ↔
      slash ∈ startPath (ascii "/a/uImage") 0 :=
  nfs_start_splits_iff 0 (by decide) (by decide) List.length_replicate

/-- A file name without a directory: the byte two in front of the buffer is cleared. -/
theorem nfs_start_splits_bareName :
    ¬ ∃ buff' fname dir file,
        startPtr (ascii "uImage") 0 (List.replicate 2048 0) = some (buff', fname) ∧
        load buff' = some dir ∧ 0 ≤ fname ∧ load (buff'.drop fname.toNat) = some file ∧
        (slash ∈ startPath (ascii "uImage") 0 →
          dir ++ slash :: file = startPath (ascii "uImage") 0) := by
  have hpath : startPath (ascii "uImage") 0 = ascii "uImage" := by decide
  have hfree : NulFree (ascii "uImage") := by decide
  have hslash : slash ∉ ascii "uImage" := by decide
  have hroom : (ascii "uImage").length < (List.replicate 2048 (0 : UInt8)).length := by
    rw [List.length_replicate]
    decide
  have hstore := store_append [] (List.replicate 2048 0) (ascii "uImage") hroom
  rw [List.nil_append, List.nil_append, List.length_nil] at hstore
  have hnone : startPtr (ascii "uImage") 0 (List.replicate 2048 0) = none := by
    rw [startPtr, hpath, hstore, Option.bind_eq_bind, Option.bind_some]
    exact splitPathPtr_noSlash hfree hslash _
  rintro ⟨buff', fname, dir, file, h, -⟩
  rw [hnone] at h
  cases h

end Start

end UBoot.Net.NfsPath
