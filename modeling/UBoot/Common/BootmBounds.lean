import UBoot.Common.MultiImage

namespace UBoot.Common.BootmBounds

open Lib.Memory Include.Image CmdBootm Tools.Mkimage MultiImage

/-- The `len` bytes from `start` on lie in the payload of `size` bytes at `table`. -/
def Inside (table size start len : ℕ) : Prop :=
  ∀ a, start ≤ a → a < start + len → table ≤ a ∧ a < table + size

/-- What is loaded, and the initrd of a multi-file image, lies in the payload. An initrd that is
given as an argument has an image of its own. -/
def Verified (args : Args) (size : ℕ) : Event → Prop
  | .copy src len _ => Inside (args.addr + imageHeaderSize) size src len
  | .lzmaDecode src len _ => Inside (args.addr + imageHeaderSize) size src len
  | .linux _ (some (start, len)) =>
    args.arg2 = none → Inside (args.addr + imageHeaderSize) size start len
  | _ => True

/-- The kernel that the table announces ends in the payload. -/
def KernelFits (m : Mem) (table size : ℕ) : Prop :=
  ∀ n, tableWords m table = some n → lenPtr m table 0 ≠ 0 → 4 * (n + 1) + lenPtr m table 0 ≤ size

/-- The distance of the second file from the table of `n` lengths. -/
def initrdOffset (m : Mem) (table n : ℕ) : ℕ :=
  4 * (n + 1) + lenPtr m table 0 +
    if lenPtr m table 0 % 4 ≠ 0 then 4 - lenPtr m table 0 % 4 else 0

/-- The second file that the table announces ends in the payload. -/
def InitrdFits (m : Mem) (table size : ℕ) : Prop :=
  ∀ n, tableWords m table = some n → lenPtr m table 1 ≠ 0 →
    (table + initrdOffset m table n) % 2 ^ 32 ≠ 0 →
    initrdOffset m table n % 2 ^ 32 + lenPtr m table 1 ≤ size

variable {m : Mem} {table size : ℕ}

theorem inside_iff {off len : ℕ} (hlen : len ≠ 0) :
    Inside table size (table + off) len ↔ off + len ≤ size := by
  constructor
  · intro h
    have hlast := h (table + off + (len - 1)) (by omega) (by omega)
    omega
  · intro h a hlo hhi
    omega

theorem inside_zero {start : ℕ} : Inside table size start 0 := by
  intro a hlo hhi
  omega

theorem inside_mod_iff {off len : ℕ} (hlen : len ≠ 0) (hspace : table + size ≤ 2 ^ 32) :
    Inside table size ((table + off) % 2 ^ 32) len ↔ off % 2 ^ 32 + len ≤ size := by
  by_cases hwrap : table + off % 2 ^ 32 < 2 ^ 32
  · have hstart : (table + off) % 2 ^ 32 = table + off % 2 ^ 32 := by omega
    rw [hstart]
    exact inside_iff hlen
  · have hstart : (table + off) % 2 ^ 32 < table := by omega
    constructor
    · intro h
      have hfirst := h ((table + off) % 2 ^ 32) (by omega) (by omega)
      omega
    · intro h
      omega

theorem tableEnd_ge {fuel i n : ℕ} (h : tableEnd m table fuel i = some n) : i ≤ n := by
  induction fuel generalizing i with
  | zero => cases h
  | succ fuel ih =>
    rw [tableEnd] at h
    split at h
    · cases h
      exact Nat.le_refl _
    · exact Nat.le_of_succ_le (ih h)

variable {args : Args} {hdr : ImageHeader} {lzma : List UInt8 → Option (List UInt8)}

/-- The image at `addr` passes the checks of `do_bootm` and has a table of lengths. -/
structure AcceptedMulti (m : Mem) (args : Args) (hdr : ImageHeader) : Prop where
  check : checkImage m args.addr args.verify = .ok hdr
  arch : hdr.ihArch = ihCpuMips
  type : hdr.ihType = ihTypeMulti

/-- `do_bootm` has loaded the kernel, which leaves the memory `m'`. -/
def Loaded (lzma : List UInt8 → Option (List UInt8)) (m : Mem) (args : Args) (hdr : ImageHeader)
    (m' : Mem) : Prop :=
  ∃ data len done, kernelImage m hdr (args.addr + imageHeaderSize) = some (data, len) ∧
    loadImage lzma m hdr args.addr data len hdr.ihLoad = .ok (done, some m')

/-- The compression has `do_bootm` read the kernel. -/
def Reads (args : Args) (hdr : ImageHeader) : Prop :=
  hdr.ihComp = ihCompNone ∧ hdr.ihLoad ≠ args.addr ∨ hdr.ihComp = ihCompLzma

/-- `do_bootm` hands the image over to Linux, without an initrd on the command line. -/
def StartsLinux (args : Args) (hdr : ImageHeader) : Prop :=
  args.arg2 = none ∧ hdr.ihOs ∉ [ihOsNetbsd, ihOsRtems, ihOsVxworks, ihOsQnx]

theorem verified_of_arg {addr : ℕ} (harg : args.arg2 = some addr) {e : Event} (table : ℕ)
    (he : e ∈ (doBootmLinux m hdr table args).1) : Verified args size e := by
  simp only [doBootmLinux, harg] at he
  generalize checkImage m addr args.verify = checked at he
  cases checked with
  | error f => exact absurd he List.not_mem_nil
  | ok rd =>
    rw [startWithRamdisk] at he
    split_ifs at he
    · exact absurd he List.not_mem_nil
    · obtain rfl := List.mem_singleton.mp he
      intro hnone
      rw [harg] at hnone
      cases hnone

theorem doBootmLinux_verified_iff (htype : hdr.ihType = ihTypeMulti) (harg : args.arg2 = none)
    (hspace : args.addr + imageHeaderSize + size ≤ 2 ^ 32) :
    (∀ e ∈ (doBootmLinux m hdr (args.addr + imageHeaderSize) args).1, Verified args size e) ↔
      InitrdFits m (args.addr + imageHeaderSize) size := by
  unfold doBootmLinux InitrdFits
  generalize htable : args.addr + imageHeaderSize = table at hspace ⊢
  rw [harg]
  dsimp only
  by_cases hone : lenPtr m table 1 = 0
  · simp [hone, Verified]
  rw [if_pos ⟨htype, hone⟩]
  cases hwords : tableWords m table with
  | none => simp
  | some n =>
    have hn : 1 ≤ n := tableEnd_ge hwords
    have hoff : table + 8 + 4 * (n - 1) + lenPtr m table 0 +
        (if lenPtr m table 0 % 4 ≠ 0 then 4 - lenPtr m table 0 % 4 else 0) =
          table + initrdOffset m table n := by
      rw [initrdOffset]
      omega
    simp only [hoff, Option.some.injEq, forall_eq', List.mem_singleton, forall_eq]
    by_cases hzero : (table + initrdOffset m table n) % 2 ^ 32 = 0
    · rw [if_neg (not_not_intro hzero)]
      exact ⟨fun _ _ h ↦ absurd hzero h, fun _ ↦ trivial⟩
    · rw [if_pos hzero, Verified, htable, inside_mod_iff hone hspace]
      exact ⟨fun h _ _ ↦ h harg, fun h _ ↦ h hone hzero⟩

theorem startImage_verified_iff (htype : hdr.ihType = ihTypeMulti)
    (hspace : args.addr + imageHeaderSize + size ≤ 2 ^ 32) :
    (∀ e ∈ (startImage m hdr (args.addr + imageHeaderSize) args).1, Verified args size e) ↔
      (StartsLinux args hdr → InitrdFits m (args.addr + imageHeaderSize) size) := by
  have hstd : hdr.ihType ≠ ihTypeStandalone := by
    rw [htype]
    decide
  rw [startImage, if_neg hstd]
  by_cases hos : hdr.ihOs ∈ [ihOsNetbsd, ihOsRtems, ihOsVxworks, ihOsQnx]
  · rw [if_pos hos]
    simp [Verified, StartsLinux, hos]
  rw [if_neg hos]
  cases harg : args.arg2 with
  | some addr =>
    refine ⟨fun _ h ↦ ?_, fun _ e he ↦ verified_of_arg harg _ he⟩
    rw [StartsLinux, harg] at h
    cases h.1
  | none =>
    rw [doBootmLinux_verified_iff htype harg hspace]
    exact ⟨fun h _ ↦ h, fun h ↦ h ⟨harg, hos⟩⟩

theorem kernelImage_inside_iff (htype : hdr.ihType = ihTypeMulti) {data len : ℕ}
    (hk : kernelImage m hdr table = some (data, len)) :
    Inside table size data len ↔ KernelFits m table size := by
  rw [kernelImage, if_pos htype, Option.map_eq_some_iff] at hk
  obtain ⟨n, hwords, hk⟩ := hk
  cases hk
  have hn : 1 ≤ n := tableEnd_ge hwords
  have hdata : table + 8 + 4 * (n - 1) = table + 4 * (n + 1) := by omega
  rw [hdata, KernelFits]
  simp only [hwords, Option.some.injEq, forall_eq']
  by_cases hlen : lenPtr m table 0 = 0
  · simp [hlen, inside_zero]
  · rw [inside_iff hlen]
    exact ⟨fun h _ ↦ h, fun h ↦ h hlen⟩

theorem checkImage_ok {addr : ℕ} {verify : Bool} (h : checkImage m addr verify = .ok hdr) :
    hdr = readHeader m addr := by
  simp only [checkImage] at h
  split_ifs at h
  cases h
  rfl

theorem loadImage_verified_iff {data len load : ℕ} {done : List Event} {m' : Option Mem}
    (h : loadImage lzma m hdr args.addr data len load = .ok (done, m')) :
    (∀ e ∈ done, Verified args size e) ↔
      (hdr.ihComp = ihCompNone ∧ load ≠ args.addr ∨ hdr.ihComp = ihCompLzma →
        Inside (args.addr + imageHeaderSize) size data len) := by
  have hne : ihCompNone ≠ ihCompLzma := by decide
  unfold loadImage at h
  split_ifs at h with hnone hxip hlzma
  · cases h
    simp [hnone, hxip, hne]
  · cases h
    simp [hnone, hxip, Verified]
  · cases h
    simp [hlzma, Verified]

/-- What is loaded is verified, and what is started with the memory that the loading leaves. -/
theorem loadAndStart_verified_iff {data len : ℕ} :
    (∀ e ∈ (loadAndStart lzma m hdr args data len).1, Verified args size e) ↔
      ∀ done m', loadImage lzma m hdr args.addr data len (loadAddress hdr args) = .ok (done, m') →
        (∀ e ∈ done, Verified args size e) ∧
        ∀ m'' ∈ m', ∀ e ∈ (startImage m'' hdr (args.addr + imageHeaderSize) args).1,
          Verified args size e := by
  unfold loadAndStart
  split
  · next f hload => simp [hload]
  · next done hload => simp [hload]
  · next done m' hload =>
    constructor
    · intro h done' m'' heq
      rw [hload] at heq
      cases heq
      refine ⟨fun e he ↦ h e (List.mem_append_left _ he), fun m'' hm e he ↦ ?_⟩
      cases hm
      exact h e (List.mem_append_right _ he)
    · intro h e he
      obtain ⟨hdone, hstart⟩ := h done (some m') hload
      rcases List.mem_append.mp he with he | he
      · exact hdone e he
      · exact hstart m' rfl e he

/-- An image without a table is loaded from the payload as a whole. -/
theorem loadAndStart_verified_of_single (htype : hdr.ihType ≠ ihTypeMulti) :
    ∀ e ∈ (loadAndStart lzma m hdr args (args.addr + imageHeaderSize) hdr.ihSize).1,
      Verified args hdr.ihSize e := by
  rw [loadAndStart_verified_iff]
  intro done m' hload
  refine ⟨(loadImage_verified_iff hload).mpr fun _ a hlo hhi ↦ ⟨hlo, hhi⟩, ?_⟩
  intro m'' _ e he
  unfold startImage at he
  split_ifs at he
  · obtain rfl := List.mem_singleton.mp he
    trivial
  · cases he
  · obtain rfl := List.mem_singleton.mp he
    trivial
  · cases harg : args.arg2 with
    | some addr => exact verified_of_arg harg _ he
    | none =>
      simp only [doBootmLinux, harg, htype, false_and, if_false, List.mem_singleton] at he
      subst he
      trivial

theorem loadImage_of_reads (lzma : List UInt8 → Option (List UInt8)) (m : Mem) (h : Reads args hdr)
    (data len : ℕ) :
    ∃ done m', loadImage lzma m hdr args.addr data len hdr.ihLoad = .ok (done, m') := by
  unfold loadImage
  rcases h with ⟨hnone, hxip⟩ | hlzma
  · exact ⟨_, _, by rw [if_pos hnone, if_neg hxip]⟩
  · have hne : hdr.ihComp ≠ ihCompNone := by
      rw [hlzma]
      decide
    exact ⟨_, _, by rw [if_neg hne, if_pos hlzma]⟩

theorem loadAndStart_verified_of_multi (htype : hdr.ihType = ihTypeMulti) {data len : ℕ}
    (hk : kernelImage m hdr (args.addr + imageHeaderSize) = some (data, len))
    (hspace : args.addr + imageHeaderSize + size ≤ 2 ^ 32) :
    (∀ e ∈ (loadAndStart lzma m hdr args data len).1, Verified args size e) ↔
      (Reads args hdr → KernelFits m (args.addr + imageHeaderSize) size) ∧
      ∀ m', Loaded lzma m args hdr m' → StartsLinux args hdr →
        InitrdFits m' (args.addr + imageHeaderSize) size := by
  have hload : loadAddress hdr args = hdr.ihLoad := by
    rw [loadAddress, if_neg]
    rw [htype]
    decide
  rw [loadAndStart_verified_iff, hload]
  constructor
  · intro h
    constructor
    · intro hreads
      obtain ⟨done, m', hdone⟩ := loadImage_of_reads lzma m hreads data len
      rw [← kernelImage_inside_iff htype hk]
      exact (loadImage_verified_iff hdone).mp (h done m' hdone).1 hreads
    · rintro m' ⟨data', len', done, hk', hdone⟩ hstart
      rw [hk] at hk'
      cases hk'
      exact (startImage_verified_iff htype hspace).mp ((h done (some m') hdone).2 m' rfl) hstart
  · rintro ⟨hkernel, hinitrd⟩ done m' hdone
    constructor
    · apply (loadImage_verified_iff hdone).mpr
      intro hreads
      exact (kernelImage_inside_iff htype hk).mpr (hkernel hreads)
    · intro m'' hm
      cases hm
      exact (startImage_verified_iff htype hspace).mpr
        (hinitrd m'' ⟨data, len, done, hk, hdone⟩)

theorem doBootm_verified_of_not_multi (h : ∀ hdr, ¬ AcceptedMulti m args hdr) :
    ∀ e ∈ (doBootm lzma m args).1, Verified args (readHeader m args.addr).ihSize e := by
  rw [doBootm]
  cases hcheck : checkImage m args.addr args.verify with
  | error f => simp [bootChecked]
  | ok hdr =>
  rw [bootChecked]
  split_ifs with harch hknown
  · simp
  · have htype : hdr.ihType ≠ ihTypeMulti :=
      fun htype ↦ h hdr ⟨hcheck, not_not.mp harch, htype⟩
    have hk : kernelImage m hdr (args.addr + imageHeaderSize) =
        some (args.addr + imageHeaderSize, hdr.ihSize) := if_neg htype
    rw [← checkImage_ok hcheck, hk]
    exact loadAndStart_verified_of_single htype
  · simp

theorem doBootm_verified_of_multi (h : AcceptedMulti m args hdr)
    (hspace : args.addr + imageHeaderSize + size ≤ 2 ^ 32) :
    (∀ e ∈ (doBootm lzma m args).1, Verified args size e) ↔
      (Reads args hdr → KernelFits m (args.addr + imageHeaderSize) size) ∧
      ∀ m', Loaded lzma m args hdr m' → StartsLinux args hdr →
        InitrdFits m' (args.addr + imageHeaderSize) size := by
  have hknown : ¬ hdr.ihType ∉ [ihTypeStandalone, ihTypeKernel, ihTypeMulti] := by
    rw [h.type]
    decide
  rw [doBootm, h.check, bootChecked, if_neg (not_not_intro h.arch), if_neg hknown]
  cases hk : kernelImage m hdr (args.addr + imageHeaderSize) with
  | some image => exact loadAndStart_verified_of_multi h.type hk hspace
  | none =>
    refine ⟨fun _ ↦ ⟨fun _ n hn ↦ ?_, ?_⟩, fun _ e he ↦ absurd he List.not_mem_nil⟩
    · rw [kernelImage, if_pos h.type, hn] at hk
      cases hk
    · rintro m' ⟨data, len, done, hsome, -⟩
      rw [hk] at hsome
      cases hsome

/-- What `do_bootm` loads and what it designates as initrd lies in the payload exactly when the
table of a multi-file image announces files that end there: the kernel in the table as it is before
the loading, the initrd in the table as the loading leaves it. -/
theorem bootm_verified_iff (lzma : List UInt8 → Option (List UInt8)) (m : Mem) (args : Args)
    (hspace : args.addr + imageHeaderSize + (readHeader m args.addr).ihSize ≤ 2 ^ 32) :
    (∀ e ∈ (doBootm lzma m args).1, Verified args (readHeader m args.addr).ihSize e) ↔
      ∀ hdr, AcceptedMulti m args hdr →
        (Reads args hdr → KernelFits m (args.addr + imageHeaderSize) hdr.ihSize) ∧
        ∀ m', Loaded lzma m args hdr m' → StartsLinux args hdr →
          InitrdFits m' (args.addr + imageHeaderSize) hdr.ihSize := by
  by_cases hmulti : ∃ hdr, AcceptedMulti m args hdr
  · obtain ⟨hdr, hacc⟩ := hmulti
    have hhdr := checkImage_ok hacc.check
    rw [doBootm_verified_of_multi hacc hspace, ← hhdr]
    refine ⟨fun h hdr' hacc' ↦ ?_, fun h ↦ h hdr hacc⟩
    obtain rfl : hdr' = hdr := (checkImage_ok hacc'.check).trans hhdr.symm
    exact h
  · have hnone := not_exists.mp hmulti
    exact ⟨fun _ hdr hacc ↦ absurd hacc (hnone hdr),
      fun _ ↦ doBootm_verified_of_not_multi hnone⟩

section Placed

variable {kernel copied : List UInt8} {rest : List (List UInt8)} {addr : ℕ}

theorem kernelFits_of_placed (h : Placed m kernel rest copied addr) :
    KernelFits m (addr + imageHeaderSize) ((sizeTable (kernel :: rest)).length + copied.length) := by
  intro n hn _
  rw [h.tableWords, Option.some.injEq] at hn
  obtain ⟨tail, hcopied⟩ := copyFiles_head h.copies
  have h₀ : lenPtr m (addr + imageHeaderSize) 0 = kernel.length := h.lenPtr 0 (Nat.zero_le _)
  rw [h₀, ← hn, sizeTable_length, hcopied, List.length_append, List.length_cons]
  omega

theorem initrdFits_of_placed (h : Placed m kernel rest copied addr) :
    InitrdFits m (addr + imageHeaderSize) ((sizeTable (kernel :: rest)).length + copied.length) := by
  intro n hn hone _
  rw [h.tableWords, Option.some.injEq] at hn
  cases rest with
  | nil => exact absurd (h.lenPtr 1 (Nat.le_refl _)) hone
  | cons next more =>
    have h₀ : lenPtr m (addr + imageHeaderSize) 0 = kernel.length := h.lenPtr 0 (Nat.zero_le _)
    have h₁ : lenPtr m (addr + imageHeaderSize) 1 = next.length := h.lenPtr 1 (by simp)
    have hend := h.second.2
    have hspace := h.space
    have hpad : (padding kernel).length =
        if kernel.length % 4 ≠ 0 then 4 - kernel.length % 4 else 0 := List.length_replicate
    simp only [sizeTable_length, List.length_cons] at hspace hn ⊢
    rw [initrdOffset, h₀, h₁, ← hpad]
    omega

end Placed

/-- The command `bootm 0`. -/
def bootZero : Args where
  addr := 0
  arg2 := none
  verify := true
  autostart := true

/-- Of an image of two files only bytes of the payload are taken. -/
theorem bootm_verified_two :
    bootZero.addr + imageHeaderSize +
        (readHeader (fun k ↦ sampleImage.getD k 0) bootZero.addr).ihSize ≤ 2 ^ 32 ∧
    ∀ e ∈ (doBootm (fun _ ↦ none) (fun k ↦ sampleImage.getD k 0) bootZero).1,
      Verified bootZero (readHeader (fun k ↦ sampleImage.getD k 0) bootZero.addr).ihSize e := by
  obtain ⟨copied, hplaced, ⟨hcrc, hcheck⟩, hlen⟩ := placed_of_mkimage
    (show mkimage sample ([1, 2, 3] :: [[4, 5]]) = some sampleImage from rfl) (by decide)
    (bytes_getD sampleImage 0) (by decide)
  have hread := checkImage_ok (hcheck true)
  have hsize : (newHeader sample (sizeTable [[1, 2, 3], [4, 5]] ++ copied) hcrc).ihSize =
      (sizeTable [[1, 2, 3], [4, 5]]).length + copied.length := List.length_append
  have hfit : imageHeaderSize + ((sizeTable [[1, 2, 3], [4, 5]]).length + copied.length) = 82 := by
    rw [← Nat.add_assoc, ← hlen]
    decide
  have hspace : bootZero.addr + imageHeaderSize +
      (readHeader (fun k ↦ sampleImage.getD k 0) bootZero.addr).ihSize ≤ 2 ^ 32 := by
    rw [show bootZero.addr = 0 from rfl, ← hread, hsize, Nat.zero_add, hfit]
    decide
  refine ⟨hspace, ?_⟩
  refine (bootm_verified_iff (fun _ ↦ none) (fun k ↦ sampleImage.getD k 0) bootZero hspace).mpr ?_
  intro hdr hacc
  obtain rfl := (checkImage_ok hacc.check).trans hread.symm
  rw [hsize]
  refine ⟨fun _ ↦ kernelFits_of_placed hplaced, ?_⟩
  rintro m' ⟨data, len, done, hk, hload⟩ -
  rw [show bootZero.addr = 0 from rfl, kernelImage_placed hplaced rfl] at hk
  cases hk
  have hxip : sample.addr ≠ 0 := by decide
  have hover : imageHeaderSize + ((sizeTable [[1, 2, 3], [4, 5]]).length + copied.length) ≤
      sample.addr := by
    rw [hfit]
    decide
  have hloaded := (loadImage_placed (fun _ ↦ none) hplaced rfl hxip).symm.trans hload
  cases hloaded
  exact initrdFits_of_placed (hplaced.store (Or.inr (by omega)))

/-- A payload that is a table, which announces a kernel of 64 bytes, and no kernel. -/
def shortData : List UInt8 := be32 64 ++ be32 0

/-- The image of this payload with its checksums. -/
def shortImage : List UInt8 :=
  (newHeader sample shortData (headerChecksum sample shortData)).bytes (nameField sample.name) ++
    shortData

theorem shortImage_accepted : AcceptedMulti (fun k ↦ shortImage.getD k 0) bootZero
    (newHeader sample shortData (headerChecksum sample shortData)) where
  check := checkImage_newHeader (by decide) (bytes_getD shortImage 0) true
  arch := rfl
  type := rfl

theorem shortImage_not_fits : ¬ KernelFits (fun k ↦ shortImage.getD k 0) 64 8 := by
  intro h
  have hdata : bytes (fun k ↦ shortImage.getD k 0) 64 8 = be32 64 ++ be32 0 := by
    have hbody := (bytes_eq_append (bytes_getD shortImage 0)).2
    rwa [newHeader_bytes_length] at hbody
  obtain ⟨h₀, hrest⟩ := load32_head hdata
  have hlen : lenPtr (fun k ↦ shortImage.getD k 0) 64 0 = 64 := h₀
  have hend : lenPtr (fun k ↦ shortImage.getD k 0) 64 1 = 0 := (load32_head (b := []) hrest).1
  have hwords : tableWords (fun k ↦ shortImage.getD k 0) 64 = some 1 := by
    apply tableEnd_eq_some hend
    · exact Nat.le_refl 1
    · omega
    · intro j hj hj'
      omega
  have hfits := h 1 hwords (by omega)
  omega

/-- The 64 bytes behind the image are copied. -/
theorem bootm_shortImage :
    ¬ ∀ e ∈ (doBootm (fun _ ↦ none) (fun k ↦ shortImage.getD k 0) bootZero).1,
      Verified bootZero (readHeader (fun k ↦ shortImage.getD k 0) bootZero.addr).ihSize e := by
  rw [← checkImage_ok shortImage_accepted.check,
    doBootm_verified_of_multi shortImage_accepted (by decide)]
  intro h
  exact shortImage_not_fits (h.1 (Or.inl ⟨rfl, by decide⟩))

end UBoot.Common.BootmBounds
