import UBoot.Common.CmdBootm
import UBoot.Tools.Mkimage

namespace UBoot.Common.MultiImage

open Lib.Memory Include.Image LibGeneric.Crc32 CmdBootm Tools.Mkimage

variable {m : Mem} {files : List (List UInt8)}

theorem sizeTable_length (files : List (List UInt8)) :
    (sizeTable files).length = 4 * (files.length + 1) := by
  induction files with
  | nil => rfl
  | cons file files ih =>
    simp only [sizeTable, List.length_append, be32_length, ih, List.length_cons]
    omega

theorem lenPtr_of_sizeTable {table k : ℕ} (h : bytes m table k = sizeTable files)
    (hsize : ∀ f ∈ files, f.length < 2 ^ 32) (i : ℕ) (hi : i ≤ files.length) :
    lenPtr m table i = (files.map List.length).getD i 0 := by
  induction files generalizing table k i with
  | nil =>
    obtain rfl : i = 0 := by simpa using hi
    exact load32_at (a := []) (b := []) (v := 0) h
  | cons file files ih =>
    obtain ⟨hhead, htail⟩ := bytes_eq_append h
    cases i with
    | zero =>
      have hw := load32_at (a := []) (b := []) (v := file.length) hhead
      have hlt := hsize file List.mem_cons_self
      rw [List.map_cons, List.getD_cons_zero, lenPtr]
      exact hw.trans (Nat.mod_eq_of_lt hlt)
    | succ i =>
      have hw := ih htail (fun f hf ↦ hsize f (List.mem_cons_of_mem _ hf)) i (by simpa using hi)
      rw [List.map_cons, List.getD_cons_succ, ← hw, lenPtr, lenPtr, be32_length]
      congr 1
      omega

theorem tableEnd_eq_some {table n : ℕ} (hend : lenPtr m table n = 0) :
    ∀ fuel i, i ≤ n → n < i + fuel → (∀ j, i ≤ j → j < n → lenPtr m table j ≠ 0) →
      tableEnd m table fuel i = some n := by
  intro fuel
  induction fuel with
  | zero =>
    intro i hi hn
    omega
  | succ fuel ih =>
    intro i hi hn hne
    rcases Nat.eq_or_lt_of_le hi with rfl | hlt
    · rw [tableEnd, if_pos hend]
    · rw [tableEnd, if_neg (hne i (Nat.le_refl i) hlt)]
      exact ih (i + 1) hlt (by omega) fun j hj hjn ↦ hne j (by omega) hjn

theorem tableWords_of_sizeTable {table k : ℕ} (h : bytes m table k = sizeTable files)
    (hsize : ∀ f ∈ files, f.length < 2 ^ 32) (hne : ∀ f ∈ files, f ≠ []) (hfiles : files ≠ [])
    (hspace : table + (sizeTable files).length ≤ 2 ^ 32) :
    tableWords m table = some files.length := by
  have hpos := List.length_pos_of_ne_nil hfiles
  rw [sizeTable_length] at hspace
  have hend : lenPtr m table files.length = 0 := by
    rw [lenPtr_of_sizeTable h hsize _ (Nat.le_refl _)]
    simp
  apply tableEnd_eq_some hend _ 1 hpos (by omega)
  intro j _ hj
  rw [lenPtr_of_sizeTable h hsize j (Nat.le_of_lt hj), List.getD_eq_getElem _ _ (by simpa using hj),
    List.getElem_map]
  exact Nat.ne_of_gt (List.length_pos_of_ne_nil (hne _ (List.getElem_mem hj)))

variable {opt : Options} {data : List UInt8}

theorem nameField_length (name : List UInt8) : (nameField name).length = 32 := by
  simp [nameField, ihNmlen]

theorem newHeader_bytes_length (hcrc : ℕ) :
    ((newHeader opt data hcrc).bytes (nameField opt.name)).length = imageHeaderSize := by
  simp [ImageHeader.bytes, nameField_length, imageHeaderSize]

theorem newHeader_bounded (hdata : data.length < 2 ^ 32) :
    (newHeader opt data (headerChecksum opt data)).Bounded where
  magic := (by decide : ihMagic < 2 ^ 32)
  hcrc := UInt32.toNat_lt _
  time := opt.mtime_lt
  size := hdata
  load := opt.addr_lt
  ep := opt.ep_lt
  dcrc := UInt32.toNat_lt _
  os := opt.optOs_lt
  arch := opt.optArch_lt
  type := (by decide : ihTypeMulti < 2 ^ 8)
  comp := (by decide : ihCompNone < 2 ^ 8)

/-- `do_bootm` accepts the checksums of an image that `mkimage` has written. -/
theorem checkImage_newHeader {addr k : ℕ} (hdata : data.length < 2 ^ 32)
    (h : bytes m addr k = (newHeader opt data (headerChecksum opt data)).bytes
      (nameField opt.name) ++ data) (verify : Bool) :
    checkImage m addr verify = .ok (newHeader opt data (headerChecksum opt data)) := by
  obtain ⟨hhdr, hbody⟩ := bytes_eq_append h
  rw [newHeader_bytes_length] at hhdr hbody
  have hread := readHeader_of_bytes hhdr (newHeader_bounded hdata)
  have hzero : bytes m addr 4 ++ be32 0 ++ bytes m (addr + 8) 56 =
      (newHeader opt data 0).bytes (nameField opt.name) := by
    simp only [ImageHeader.bytes, List.append_assoc] at hhdr ⊢
    obtain ⟨hmagic, hrest⟩ := bytes_eq_append hhdr
    obtain ⟨-, hrest⟩ := bytes_eq_append hrest
    simp only [be32_length, List.length_append, nameField_length, List.length_cons,
      List.length_nil, Nat.add_assoc, Nat.reduceAdd] at hmagic hrest
    rw [hmagic, hrest]
    rfl
  have hmagic : (newHeader opt data (headerChecksum opt data)).ihMagic = ihMagic := rfl
  have hsize : (newHeader opt data (headerChecksum opt data)).ihSize = data.length := rfl
  have hhcrc : (crc32 0 ((newHeader opt data 0).bytes (nameField opt.name))).toNat =
      (newHeader opt data (headerChecksum opt data)).ihHcrc := rfl
  have hdcrc : (crc32 0 data).toNat = (newHeader opt data (headerChecksum opt data)).ihDcrc := rfl
  simp only [checkImage, hread, hmagic, hzero, hsize, hbody]
  rw [if_neg (not_not_intro rfl), if_neg (not_not_intro hhcrc), if_neg fun hc ↦ hc.2 hdcrc]

/-- The zero bytes behind a file that is not the last one. -/
def padding (file : List UInt8) : List UInt8 :=
  List.replicate (if file.length % 4 ≠ 0 then 4 - file.length % 4 else 0) 0

theorem copyFile_last {file out : List UInt8} (h : copyFile file false = some out) :
    out = file ∧ file.length < 2 ^ 31 := by
  unfold copyFile at h
  split at h
  · cases h
  · next hlt => exact ⟨by simpa using h.symm, Nat.lt_of_not_le hlt⟩

theorem copyFile_padded {file out : List UInt8} (h : copyFile file true = some out) :
    out = file ++ padding file ∧ file.length < 2 ^ 31 := by
  unfold copyFile at h
  split at h
  · cases h
  next hlt =>
  refine ⟨?_, Nat.lt_of_not_le hlt⟩
  have hout : out = _ := (Option.some.inj h).symm
  rw [hout, padding]
  by_cases htail : file.length % 4 = 0
  · simp [htail]
  · simp [htail]

theorem copyFiles_cons_cons {file next out : List UInt8} {rest : List (List UInt8)}
    (h : copyFiles (file :: next :: rest) = some out) :
    ∃ tail, copyFiles (next :: rest) = some tail ∧ out = file ++ padding file ++ tail ∧
      file.length < 2 ^ 31 := by
  simp only [copyFiles, Option.bind_eq_bind, Option.bind_eq_some_iff, Option.pure_def,
    Option.some.injEq] at h
  obtain ⟨first, hfirst, tail, htail, rfl⟩ := h
  obtain ⟨rfl, hlt⟩ := copyFile_padded hfirst
  exact ⟨tail, htail, rfl, hlt⟩

theorem copyFiles_size {out : List UInt8} (h : copyFiles files = some out) :
    ∀ f ∈ files, f.length < 2 ^ 31 := by
  induction files generalizing out with
  | nil => simp
  | cons file rest ih =>
    cases rest with
    | nil =>
      intro f hf
      obtain rfl := List.mem_singleton.mp hf
      exact (copyFile_last h).2
    | cons next rest =>
      obtain ⟨tail, htail, -, hlt⟩ := copyFiles_cons_cons h
      intro f hf
      rcases List.mem_cons.mp hf with rfl | hf
      · exact hlt
      · exact ih htail f hf

/-- Every file starts the part of the data that is copied from it on. -/
theorem copyFiles_head {file out : List UInt8} {rest : List (List UInt8)}
    (h : copyFiles (file :: rest) = some out) : ∃ tail, out = file ++ tail := by
  cases rest with
  | nil => exact ⟨[], by simpa using (copyFile_last h).1⟩
  | cons next rest =>
    obtain ⟨tail, -, rfl, -⟩ := copyFiles_cons_cons h
    exact ⟨padding file ++ tail, List.append_assoc _ _ _⟩

/-- The image of `kernel :: rest` lies at `addr`, with the data `copied` behind the table. -/
structure Placed (m : Mem) (kernel : List UInt8) (rest : List (List UInt8))
    (copied : List UInt8) (addr : ℕ) : Prop where
  copies : copyFiles (kernel :: rest) = some copied
  nonempty : ∀ f ∈ kernel :: rest, f ≠ []
  table : bytes m (addr + imageHeaderSize) (sizeTable (kernel :: rest)).length =
    sizeTable (kernel :: rest)
  data : bytes m (addr + imageHeaderSize + (sizeTable (kernel :: rest)).length) copied.length =
    copied
  space : addr + imageHeaderSize + (sizeTable (kernel :: rest)).length + copied.length ≤ 2 ^ 32

variable {kernel copied : List UInt8} {rest : List (List UInt8)} {addr : ℕ}

theorem placed_of_mkimage {img : List UInt8} (himg : mkimage opt (kernel :: rest) = some img)
    (hne : ∀ f ∈ kernel :: rest, f ≠ []) (hmem : bytes m addr img.length = img)
    (hspace : addr + img.length ≤ 2 ^ 32) :
    ∃ copied, Placed m kernel rest copied addr ∧
      (∃ hcrc, ∀ verify, checkImage m addr verify =
        .ok (newHeader opt (sizeTable (kernel :: rest) ++ copied) hcrc)) ∧
      img.length = imageHeaderSize + (sizeTable (kernel :: rest)).length + copied.length := by
  rw [mkimage, Option.map_eq_some_iff] at himg
  obtain ⟨copied, hcopied, himg⟩ := himg
  have hlen : img.length =
      imageHeaderSize + (sizeTable (kernel :: rest)).length + copied.length := by
    rw [← himg, List.length_append, newHeader_bytes_length, List.length_append, Nat.add_assoc]
  rw [← himg] at hmem
  obtain ⟨hhdr, hbody⟩ := bytes_eq_append hmem
  rw [newHeader_bytes_length] at hbody
  obtain ⟨htable, hdata⟩ := bytes_eq_append hbody
  have hfit : (sizeTable (kernel :: rest) ++ copied).length < 2 ^ 32 := by
    rw [List.length_append]
    simp only [imageHeaderSize] at hlen
    omega
  exact ⟨copied, ⟨hcopied, hne, htable, hdata, by omega⟩,
    ⟨_, checkImage_newHeader hfit hmem⟩, hlen⟩

namespace Placed

theorem size (h : Placed m kernel rest copied addr) :
    ∀ f ∈ kernel :: rest, f.length < 2 ^ 32 :=
  fun f hf ↦ Nat.lt_of_lt_of_le (copyFiles_size h.copies f hf) (by omega)

theorem lenPtr (h : Placed m kernel rest copied addr) (i : ℕ) (hi : i ≤ rest.length + 1) :
    lenPtr m (addr + imageHeaderSize) i = ((kernel :: rest).map List.length).getD i 0 :=
  lenPtr_of_sizeTable h.table h.size i hi

theorem tableWords (h : Placed m kernel rest copied addr) :
    tableWords m (addr + imageHeaderSize) = some (rest.length + 1) :=
  tableWords_of_sizeTable h.table h.size h.nonempty (by simp) (by have := h.space; omega)

theorem first (h : Placed m kernel rest copied addr) :
    bytes m (addr + imageHeaderSize + 4 * (rest.length + 2)) kernel.length = kernel := by
  obtain ⟨tail, rfl⟩ := copyFiles_head h.copies
  have hdata := (bytes_eq_append h.data).1
  rwa [sizeTable_length, List.length_cons] at hdata

theorem second {next : List UInt8} {more : List (List UInt8)}
    (h : Placed m kernel (next :: more) copied addr) :
    bytes m (addr + imageHeaderSize + 4 * (more.length + 3) + kernel.length +
      (padding kernel).length) next.length = next ∧
    kernel.length + (padding kernel).length + next.length ≤ copied.length := by
  obtain ⟨tail, htail, hcopied, -⟩ := copyFiles_cons_cons h.copies
  obtain ⟨tail', rfl⟩ := copyFiles_head htail
  have hdata := h.data
  rw [hcopied] at hdata
  have hnext := (bytes_eq_append (bytes_eq_append hdata).2).1
  simp only [sizeTable_length, List.length_cons, List.length_append, Nat.add_assoc,
    Nat.reduceAdd] at hnext ⊢
  refine ⟨hnext, ?_⟩
  rw [hcopied]
  simp only [List.length_append]
  omega

end Placed

/-- The address of the first file of the image at `addr`. -/
def kernelStart (rest : List (List UInt8)) (addr : ℕ) : ℕ :=
  addr + imageHeaderSize + 4 * (rest.length + 2)

theorem kernelImage_placed (h : Placed m kernel rest copied addr) {hdr : ImageHeader}
    (htype : hdr.ihType = ihTypeMulti) :
    kernelImage m hdr (addr + imageHeaderSize) = some (kernelStart rest addr, kernel.length) := by
  have h₀ := h.lenPtr 0 (Nat.zero_le _)
  rw [List.map_cons, List.getD_cons_zero] at h₀
  rw [kernelImage, if_pos htype, h.tableWords, h₀, Option.map_some, kernelStart]
  congr 2
  omega

/-- `do_bootm_linux` finds the table as it is in memory when it is called. -/
theorem doBootmLinux_single (h : Placed m kernel [] copied addr) {hdr : ImageHeader}
    {args : Args} (harg : args.arg2 = none) :
    doBootmLinux m hdr (addr + imageHeaderSize) args = ([.linux hdr.ihEp none], .done) := by
  have h₁ : CmdBootm.lenPtr m (addr + imageHeaderSize) 1 = 0 := h.lenPtr 1 (Nat.le_refl _)
  rw [doBootmLinux, harg]
  exact if_neg fun hc ↦ hc.2 h₁

theorem doBootmLinux_second {next : List UInt8} {more : List (List UInt8)}
    (h : Placed m kernel (next :: more) copied addr) {hdr : ImageHeader}
    (htype : hdr.ihType = ihTypeMulti) {args : Args} (harg : args.arg2 = none) :
    doBootmLinux m hdr (addr + imageHeaderSize) args =
      ([.linux hdr.ihEp (some (kernelStart (next :: more) addr + kernel.length +
        (padding kernel).length, next.length))], .done) := by
  have h₀ : CmdBootm.lenPtr m (addr + imageHeaderSize) 0 = kernel.length :=
    h.lenPtr 0 (Nat.zero_le _)
  have h₁ : CmdBootm.lenPtr m (addr + imageHeaderSize) 1 = next.length :=
    h.lenPtr 1 (by simp)
  have hpos : next.length ≠ 0 :=
    Nat.ne_of_gt (List.length_pos_of_ne_nil (h.nonempty next (by simp)))
  have hend := h.second.2
  have hspace := h.space
  simp only [sizeTable_length, List.length_cons, imageHeaderSize] at hspace
  have hpad : (padding kernel).length =
      if kernel.length % 4 ≠ 0 then 4 - kernel.length % 4 else 0 := List.length_replicate
  have hstart : addr + imageHeaderSize + 8 + 4 * (more.length + 1 + 1 - 1) + kernel.length +
      (padding kernel).length = kernelStart (next :: more) addr + kernel.length +
        (padding kernel).length := by
    simp only [kernelStart, List.length_cons]
    omega
  have hlt : kernelStart (next :: more) addr + kernel.length + (padding kernel).length <
      2 ^ 32 := by
    simp only [kernelStart, List.length_cons, imageHeaderSize]
    omega
  have hzero : kernelStart (next :: more) addr + kernel.length + (padding kernel).length ≠ 0 := by
    simp only [kernelStart, imageHeaderSize]
    omega
  rw [doBootmLinux, harg]
  refine (if_pos ⟨htype, by rwa [h₁]⟩).trans ?_
  simp only [h.tableWords, h₀, h₁, List.length_cons, ← hpad, hstart, Nat.mod_eq_of_lt hlt]
  rw [if_pos hzero]

/-- The image stays in place when the kernel is loaded to another place. -/
theorem Placed.store (h : Placed m kernel rest copied addr) {load : ℕ} {bs : List UInt8}
    (hover : load + bs.length ≤ addr ∨
      addr + imageHeaderSize + (sizeTable (kernel :: rest)).length + copied.length ≤ load) :
    Placed (store m load bs) kernel rest copied addr := by
  have hkeep {off n : ℕ} (hoff : addr ≤ off)
      (hn : off + n ≤ addr + imageHeaderSize + (sizeTable (kernel :: rest)).length +
        copied.length) : bytes (Lib.Memory.store m load bs) off n = bytes m off n := by
    rcases hover with hlow | hhigh
    · exact bytes_store_of_le m (by omega)
    · exact bytes_store_of_lt m bs (by omega)
  refine ⟨h.copies, h.nonempty, ?_, ?_, h.space⟩
  · rw [hkeep (by omega) (by omega), h.table]
  · rw [hkeep (by omega) (by omega), h.data]

theorem loadImage_placed (lzma : List UInt8 → Option (List UInt8)) {hdr : ImageHeader} {load : ℕ}
    (h : Placed m kernel rest copied addr) (hcomp : hdr.ihComp = ihCompNone) (hxip : load ≠ addr) :
    loadImage lzma m hdr addr (kernelStart rest addr) kernel.length load =
      .ok ([.copy (kernelStart rest addr) kernel.length load], some (store m load kernel)) := by
  have hfirst : bytes m (kernelStart rest addr) kernel.length = kernel := h.first
  rw [loadImage, if_pos hcomp, if_neg hxip, hfirst]

/-- The way of an accepted multi-file image through `do_bootm`, up to the start of the kernel. -/
theorem doBootm_multi (lzma : List UInt8 → Option (List UInt8)) {args : Args} {hdr : ImageHeader}
    (load : ℕ) (hto : hdr.ihLoad = load)
    (h : Placed m kernel rest copied args.addr)
    (hcheck : checkImage m args.addr args.verify = .ok hdr) (htype : hdr.ihType = ihTypeMulti)
    (hcomp : hdr.ihComp = ihCompNone) (hxip : load ≠ args.addr)
    (harch : hdr.ihArch = ihCpuMips)
    (hos : hdr.ihOs ∉ [ihOsNetbsd, ihOsRtems, ihOsVxworks, ihOsQnx]) :
    doBootm lzma m args =
      ((.copy (kernelStart rest args.addr) kernel.length load) ::
        (doBootmLinux (store m load kernel) hdr (args.addr + imageHeaderSize) args).1,
        (doBootmLinux (store m load kernel) hdr (args.addr + imageHeaderSize) args).2) := by
  have hload := loadImage_placed lzma h hcomp hxip
  have hstd : hdr.ihType ≠ ihTypeStandalone := by
    rw [htype]
    decide
  have hknown : ¬ hdr.ihType ∉ [ihTypeStandalone, ihTypeKernel, ihTypeMulti] := by
    rw [htype]
    decide
  have hstart : startImage (store m load kernel) hdr (args.addr + imageHeaderSize) args =
      doBootmLinux (store m load kernel) hdr (args.addr + imageHeaderSize) args := by
    rw [startImage, if_neg hstd, if_neg hos]
  rw [doBootm, hcheck, bootChecked, if_neg (not_not_intro harch), if_neg hknown, kernelImage_placed h htype]
  simp only [loadAndStart, loadAddress, if_neg hstd, hto, hload, hstart, List.cons_append,
    List.nil_append]

/-- What `do_bootm` does with the image of a list of files: the kernel is the first file, the initrd
the second one, as it stands in memory when the kernel has been copied. -/
theorem bootm_multi_image (lzma : List UInt8 → Option (List UInt8)) (m : Mem) (opt : Options)
    (kernel : List UInt8) (rest : List (List UInt8)) (img : List UInt8) (args : Args)
    (himg : mkimage opt (kernel :: rest) = some img) (hne : ∀ f ∈ kernel :: rest, f ≠ [])
    (hmem : bytes m args.addr img.length = img) (hspace : args.addr + img.length ≤ 2 ^ 32)
    (hover : opt.addr + kernel.length ≤ args.addr ∨ args.addr + img.length ≤ opt.addr)
    (harch : opt.optArch = ihCpuMips)
    (hos : opt.optOs ∉ [ihOsNetbsd, ihOsRtems, ihOsVxworks, ihOsQnx]) (harg : args.arg2 = none) :
    ∃ src initrd,
      doBootm lzma m args =
        ([.copy src kernel.length opt.addr, .linux opt.ep initrd], .done) ∧
      bytes m src kernel.length = kernel ∧
      (rest = [] → initrd = none) ∧
      ∀ next more, rest = next :: more → ∃ start, initrd = some (start, next.length) ∧
        bytes (store m opt.addr kernel) start next.length = next := by
  obtain ⟨copied, hplaced, ⟨hcrc, hcheck⟩, hlen⟩ := placed_of_mkimage himg hne hmem hspace
  have hfirst : bytes m (kernelStart rest args.addr) kernel.length = kernel := hplaced.first
  have hloaded : Placed (store m opt.addr kernel) kernel rest copied args.addr :=
    hplaced.store (hover.imp_right fun h ↦ by omega)
  have hxip : opt.addr ≠ args.addr := by
    have hpos := List.length_pos_of_ne_nil (hne kernel List.mem_cons_self)
    rcases hover with h | h
    · omega
    · simp only [imageHeaderSize] at hlen
      omega
  have hboot := doBootm_multi lzma opt.addr rfl hplaced (hcheck args.verify) rfl rfl hxip
    harch hos
  cases rest with
  | nil =>
    rw [doBootmLinux_single hloaded harg] at hboot
    exact ⟨_, none, hboot, hfirst, fun _ ↦ rfl, nofun⟩
  | cons next more =>
    rw [doBootmLinux_second hloaded rfl harg] at hboot
    refine ⟨_, _, hboot, hfirst, nofun, fun next' more' h ↦ ?_⟩
    cases h
    exact ⟨_, rfl, hloaded.second.1⟩

/-- Two files of three and two bytes for a kernel at `0x100`. -/
def sample : Options where
  optOs := ihOsLinux
  optArch := ihCpuMips
  addr := 0x100
  ep := 0x100
  name := []
  mtime := 0
  optOs_lt := by decide
  optArch_lt := by decide
  addr_lt := by decide
  ep_lt := by decide
  mtime_lt := by decide

/-- The image that `mkimage` writes of them. -/
def sampleImage : List UInt8 :=
  (newHeader sample (sizeTable [[1, 2, 3], [4, 5]] ++ [1, 2, 3, 0, 4, 5])
    (headerChecksum sample (sizeTable [[1, 2, 3], [4, 5]] ++ [1, 2, 3, 0, 4, 5]))).bytes
      (nameField []) ++ (sizeTable [[1, 2, 3], [4, 5]] ++ [1, 2, 3, 0, 4, 5])

theorem bootm_multi_image_two :
    ∃ src start, doBootm (fun _ ↦ none) (fun k ↦ sampleImage.getD k 0)
        { addr := 0, arg2 := none, verify := true, autostart := true } =
      ([.copy src 3 0x100, .linux 0x100 (some (start, 2))], .done) := by
  obtain ⟨src, initrd, hboot, -, -, hnext⟩ := bootm_multi_image (fun _ ↦ none)
    (fun k ↦ sampleImage.getD k 0) sample [1, 2, 3] [[4, 5]] sampleImage
    { addr := 0, arg2 := none, verify := true, autostart := true } rfl (by decide)
    (bytes_getD _ _) (by decide) (Or.inr (by decide)) rfl (by decide) rfl
  obtain ⟨start, rfl, -⟩ := hnext [4, 5] [] rfl
  exact ⟨src, start, hboot⟩

end UBoot.Common.MultiImage
