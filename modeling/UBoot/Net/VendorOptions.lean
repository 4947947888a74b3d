import UBoot.Net.DhcpOptions

namespace UBoot.Net.VendorOptions

open Lib.CString Lib.Memory Lib.ReadLog Bootp BootpBounds DhcpOptions

/-- What `BootpHandler` does to the parameters, in a build without DHCP; `base` is the address of the
packet. -/
def bootpHandler (bootpID : List UInt8) (base dest src len : ℕ) (p : NetParams) :
    Reader NetParams := do
  let retval ← bootpCheckPkt bootpID dest src len
  if retval ≠ 0 then return p
  else
    let r ← withCookie p (bootpVendorProcess base len p)
    return r.1

/-- The options of a field that starts at `pos`, with their offsets. -/
def placed : ℕ → List Item → List (ℕ × Opt)
  | _, [] => []
  | pos, .pad :: items => placed (pos + 1) items
  | pos, .option o :: items => (pos, o) :: placed (pos + o.encode.length) items

/-- A parameter that an option sets: the room for its data, the value that means that it is not
known, and how the data are read. -/
structure Param where
  code : UInt8
  room : ℕ
  unset : List UInt8
  read : List UInt8 → List UInt8
  get : NetParams → List UInt8

def address (code : UInt8) (get : NetParams → List UInt8) : Param := ⟨code, 4, noAddress, id, get⟩

/-- A text in a buffer with room for so many bytes and a NUL. -/
def text (code : UInt8) (room : ℕ) (get : NetParams → List UInt8) : Param :=
  ⟨code, room, [], List.takeWhile (· != 0), get⟩

def params : List Param :=
  [address 1 NetParams.netOurSubnetMask, address 3 NetParams.netOurGatewayIP,
    address 6 NetParams.netOurDNSIP, text 12 31 NetParams.netOurHostName,
    text 17 63 NetParams.netOurRootPath, text 40 31 NetParams.netOurNISDomain]

/-- The values that a field gives to a parameter. -/
def Param.values (q : Param) (os : List Opt) : List (List UInt8) :=
  (os.filter (·.code == q.code)).map fun o ↦ q.read (o.data.take q.room)

/-- A parameter that is not known takes the first value, and others stay as they are. -/
def Param.FirstWins (q : Param) (os : List Opt) (old new : List UInt8) : Prop :=
  if q.read old = q.unset then q.read new = (q.values os).headD q.unset else new = old

/-- The data that a parameter holds behind an option. -/
def Param.take (q : Param) (old : List UInt8) (o : Opt) : List UInt8 :=
  if o.code = q.code ∧ q.read old = q.unset then o.data.take q.room else old

/-- An option with a boot file size. -/
def IsSize (o : Opt) : Prop := o.code = 13 ∧ (o.data.length = 2 ∨ o.data.length = 4)

instance : DecidablePred IsSize := fun _ ↦ inferInstanceAs (Decidable (_ ∧ _))

/-- The boot file sizes of a field. -/
def sizes (os : List Opt) : List ℕ :=
  (os.filter fun o ↦ decide (IsSize o)).map fun o ↦ o.data.foldl (fun n b ↦ n * 256 + b.toNat) 0

/-- What the options should do. -/
structure Taken (os : List Opt) (p p' : NetParams) : Prop where
  first : ∀ q ∈ params, q.FirstWins os (q.get p) (q.get p')
  size : sizes os ≠ [] → p'.netBootFileSize ∈ sizes os
  noSize : sizes os = [] → p'.netBootFileSize = 0

/-- A field on which they do it: a parameter is not given as unknown and then with a value, and the
size fits to the last option, whose address is stored when it is a boot file size. -/
structure Regular (items : List Item) (base : ℕ) (p : NetParams) : Prop where
  first : ∀ q ∈ params, q.read (q.get p) = q.unset →
    (q.values (options items)).headD q.unset = q.unset →
    ∀ v ∈ q.values (options items), v = q.unset
  lastSize : ∀ a ∈ (placed optionsStart items).getLast?, IsSize a.2 →
    (base + a.1 + 2) % 65536 ∈ sizes (options items)
  lastOther : ∀ a ∈ (placed optionsStart items).getLast?, ¬ IsSize a.2 →
    sizes (options items) ≠ [] → 0 ∈ sizes (options items)
  noOption : options items = [] → p.netBootFileSize = 0

/-- What an option at an offset does to the parameters. -/
def apply (base : ℕ) (p : NetParams) (a : ℕ × Opt) : NetParams :=
  let field := bootpVendorField base a.1 p a.2.code a.2.data.length
  field.2 (a.2.data.take field.1)

section Values

variable {base : ℕ} {p : NetParams} {q : Param}

theorem first_eq_zero (s : CStr) : first s = 0 ↔ s.takeWhile (· != 0) = [] := by
  cases s with
  | nil => simp [first]
  | cons c s => by_cases hc : c = 0 <;> simp [first, hc]

theorem get_apply (hq : q ∈ params) (a : ℕ × Opt) :
    q.get (apply base p a) = q.take (q.get p) a.2 := by
  have hhost := take_truncateSz 31 a.2.data
  have hroot := take_truncateSz 63 a.2.data
  have hcode (c : UInt8) : a.2.code = c ↔ a.2.code.toNat = c.toNat := UInt8.toNat_inj.symm
  rw [apply, Param.take]
  generalize hd : bootpVendorField base a.1 p a.2.code a.2.data.length = d
  rw [bootpVendorField] at hd
  simp only [first_eq_zero] at hd
  simp only [params, address, text, List.mem_cons, List.not_mem_nil, or_false] at hq
  split at hd
  all_goals
    try split at hd
    all_goals
      subst hd
      rcases hq with rfl | rfl | rfl | rfl | rfl | rfl <;>
        simp_all [-List.takeWhile_eq_nil_iff]

theorem get_foldl (hq : q ∈ params) (as : List (ℕ × Opt)) (p : NetParams) :
    q.get (as.foldl (apply base) p) = (as.map Prod.snd).foldl q.take (q.get p) := by
  induction as generalizing p with
  | nil => rfl
  | cons a as ih => rw [List.foldl_cons, ih, get_apply hq, List.map_cons, List.foldl_cons]

theorem foldl_take_known {old : List UInt8} (h : q.read old ≠ q.unset) (os : List Opt) :
    os.foldl q.take old = old := by
  induction os with
  | nil => rfl
  | cons o os ih => rw [List.foldl_cons, Param.take, if_neg fun hboth ↦ h hboth.2, ih]

theorem foldl_take_unset {old : List UInt8} (h : q.read old = q.unset) (os : List Opt) :
    q.read (os.foldl q.take old) = ((q.values os).find? (· != q.unset)).getD q.unset := by
  induction os generalizing old with
  | nil => exact h
  | cons o os ih =>
    rw [List.foldl_cons, Param.values]
    by_cases hcode : o.code = q.code
    · rw [Param.take, if_pos ⟨hcode, h⟩, List.filter_cons_of_pos (by simpa using hcode),
        List.map_cons]
      by_cases hvalue : q.read (o.data.take q.room) = q.unset
      · rw [List.find?_cons_of_neg (by simpa using hvalue)]
        exact ih hvalue
      · rw [List.find?_cons_of_pos (by simpa using hvalue), foldl_take_known hvalue]
        rfl
    · rw [Param.take, if_neg fun hboth ↦ hcode hboth.1,
        List.filter_cons_of_neg (by simpa using hcode)]
      exact ih h

theorem find_eq_head_iff {α : Type} [BEq α] [LawfulBEq α] (l : List α) (d : α) :
    (l.find? (· != d)).getD d = l.headD d ↔ (l.headD d = d → ∀ v ∈ l, v = d) := by
  cases l with
  | nil => simp
  | cons a l =>
    by_cases ha : a = d
    · rw [List.find?_cons_of_neg (by simpa using ha), List.headD_cons, ha]
      cases hfind : l.find? (· != d) with
      | none =>
        have hall : ∀ v ∈ l, v = d := by simpa using hfind
        simpa using hall
      | some v =>
        have hne : v ≠ d := by simpa using List.find?_some hfind
        refine iff_of_false hne fun h ↦ hne ?_
        exact h rfl v (List.mem_cons_of_mem d (List.mem_of_find?_eq_some hfind))
    · rw [List.find?_cons_of_pos (by simpa using ha), List.headD_cons]
      exact iff_of_true rfl fun h ↦ absurd h ha

theorem firstWins_iff (os : List Opt) (old : List UInt8) :
    q.FirstWins os old (os.foldl q.take old) ↔
      (q.read old = q.unset → (q.values os).headD q.unset = q.unset →
        ∀ v ∈ q.values os, v = q.unset) := by
  rw [Param.FirstWins]
  split_ifs with hunset
  · rw [foldl_take_unset hunset, find_eq_head_iff]
    exact ⟨fun h _ ↦ h, fun h ↦ h hunset⟩
  · exact iff_of_true (foldl_take_known hunset os) fun h ↦ absurd h hunset

theorem netBootFileSize_apply (a : ℕ × Opt) :
    (apply base p a).netBootFileSize = if IsSize a.2 then (base + a.1 + 2) % 65536 else 0 := by
  have hcode : a.2.code = 13 ↔ a.2.code.toNat = 13 := UInt8.toNat_inj.symm
  rw [apply]
  generalize hd : bootpVendorField base a.1 p a.2.code a.2.data.length = d
  rw [bootpVendorField] at hd
  split at hd
  all_goals
    try split at hd
    all_goals
      subst hd
      simp_all [IsSize]

theorem netBootFileSize_foldl (base : ℕ) (as : List (ℕ × Opt)) (p : NetParams) :
    (as.foldl (apply base) p).netBootFileSize =
      match as.getLast? with
      | none => p.netBootFileSize
      | some a => if IsSize a.2 then (base + a.1 + 2) % 65536 else 0 := by
  induction as using List.reverseRecOn with
  | nil => rfl
  | append_singleton as a =>
    rw [List.foldl_append, List.foldl_cons, List.foldl_nil, netBootFileSize_apply,
      List.getLast?_concat]

end Values

section Loop

variable {m : Mem} {pos : ℕ} {base : ℕ}

theorem map_snd_placed (pos : ℕ) (items : List Item) :
    (placed pos items).map Prod.snd = options items := by
  induction items generalizing pos with
  | nil => rfl
  | cons i items ih =>
    cases i with
    | pad => exact ih (pos + 1)
    | option o => exact congrArg (o :: ·) (ih (pos + o.encode.length))

theorem bootpVendorField_le (p : NetParams) (ext : ℕ) (o : Opt) :
    (bootpVendorField base ext p o.code o.data.length).1 ≤ o.data.length := by
  have hfixed := o.length_fixed
  have htrunc (room : ℕ) : truncateSz (room + 1) o.data.length ≤ o.data.length := by
    rw [truncateSz]
    split_ifs <;> omega
  have hcode (c : UInt8) : o.code.toNat = c.toNat → o.code = c := UInt8.toNat_inj.mp
  rw [bootpVendorField]
  dsimp only
  split
  case h_1 h => split_ifs; exacts [hfixed (by simp [hcode 1 h]), Nat.zero_le _]
  case h_2 h => split_ifs; exacts [hfixed (by simp [hcode 3 h]), Nat.zero_le _]
  case h_3 h => split_ifs; exacts [hfixed (by simp [hcode 6 h]), Nat.zero_le _]
  case h_4 => split_ifs; exacts [htrunc 31, Nat.zero_le _]
  case h_5 => exact Nat.zero_le _
  case h_6 => split_ifs; exacts [htrunc 63, Nat.zero_le _]
  case h_7 => split_ifs; exacts [htrunc 31, Nat.zero_le _]
  case h_8 => exact Nat.zero_le _

theorem bootpVendorLoop_value {items : List Item} (stop fuel : ℕ) (p : NetParams)
    (h : bytes m pos (encode items).length = encode items)
    (hstop : pos + (encode items).length ≤ stop) (hfuel : stop ≤ pos + fuel) :
    ((bootpVendorLoop base stop fuel pos p).value m).1 = (placed pos items).foldl (apply base) p := by
  induction items generalizing pos fuel p with
  | nil =>
    have hend : m pos = endOption := apply_of_bytes h (i := 0) (by decide)
    cases fuel with
    | zero => rfl
    | succ fuel =>
      rw [bootpVendorLoop]
      split_ifs with hbound
      · rfl
      · rw [Reader.value_bind, Reader.value_read, if_pos hend]
        rfl
  | cons i items ih =>
    have hcons : encode (i :: items) = i.encode ++ encode items := by simp [encode]
    have hpos : 0 < (encode (i :: items)).length := List.length_pos_of_ne_nil (by simp [encode])
    rw [hcons, List.length_append] at hstop hpos
    rw [hcons] at h
    obtain ⟨fuel, rfl⟩ : ∃ k, fuel = k + 1 := Nat.exists_eq_add_one.mpr (by omega)
    have hbound : ¬ stop ≤ pos := by omega
    rw [bootpVendorLoop, if_neg hbound, Reader.value_bind, Reader.value_read]
    cases i with
    | pad =>
      obtain ⟨hpad, hrest⟩ := bytes_eq_append (a := [0]) (b := encode items) h
      have hcode : m pos = 0 := apply_of_bytes hpad (i := 0) (by decide)
      have hlen : (Item.encode .pad).length = 1 := rfl
      rw [if_neg (by rw [hcode]; decide), if_pos hcode]
      exact ih fuel p hrest (by omega) (by omega)
    | option o =>
      have hsize : (Item.encode (.option o)).length = o.data.length + 2 := encode_length o
      obtain ⟨hcode, hlen, hdata, hrest⟩ := bytes_option h
      have hcopy : bytes m (pos + 2) (bootpVendorField base pos p o.code o.data.length).1 =
          o.data.take (bootpVendorField base pos p o.code o.data.length).1 := by
        obtain ⟨b, hb⟩ := Nat.exists_eq_add_of_le (bootpVendorField_le p pos o)
        rw [← bytes_take m (pos + 2) _ b, ← hb, hdata]
      rw [if_neg (hcode ▸ o.code_ne_end), if_neg (hcode ▸ o.code_ne_pad), Reader.value_bind,
        Reader.value_read, hlen, hcode]
      dsimp only
      rw [if_pos (by omega), Reader.value_bind, Reader.value_readBytes, hcopy, Reader.value_bind,
        Reader.value_pure, placed, List.foldl_cons, encode_length, Nat.add_assoc pos]
      exact ih fuel _ hrest (by omega) (by omega)

end Loop

section Handler

variable {items : List Item} {m : Mem} {base : ℕ} {bootpID : List UInt8} {dest src len : ℕ}

theorem bootpHandler_value (base : ℕ) (p : NetParams) (hfield : OptionField items len m)
    (hcheck : (bootpCheckPkt bootpID dest src len).value m = 0) :
    (bootpHandler bootpID base dest src len p).value m =
      (placed optionsStart items).foldl (apply base) p := by
  have hinside := hfield.inside
  rw [bootpHandler, Reader.value_bind, hcheck, if_neg (not_not_intro rfl), Reader.value_bind,
    withCookie_value hfield.cookie, Reader.value_pure, bootpVendorProcess]
  exact bootpVendorLoop_value _ _ p hfield.field (by omega) (Nat.le_refl _)

/-- What is asked of the boot file size, in terms of the last option. -/
theorem size_iff {size : ℕ} (p : NetParams)
    (h : size = match (placed optionsStart items).getLast? with
      | none => p.netBootFileSize
      | some a => if IsSize a.2 then (base + a.1 + 2) % 65536 else 0) :
    ((sizes (options items) ≠ [] → size ∈ sizes (options items)) ∧
        (sizes (options items) = [] → size = 0)) ↔
      (∀ a ∈ (placed optionsStart items).getLast?, IsSize a.2 →
          (base + a.1 + 2) % 65536 ∈ sizes (options items)) ∧
        (∀ a ∈ (placed optionsStart items).getLast?, ¬ IsSize a.2 →
          sizes (options items) ≠ [] → 0 ∈ sizes (options items)) ∧
        (options items = [] → p.netBootFileSize = 0) := by
  have hsnd := map_snd_placed optionsStart items
  cases hlast : (placed optionsStart items).getLast? with
  | none =>
    have hnone : options items = [] := by
      rw [← hsnd, List.getLast?_eq_none_iff.mp hlast, List.map_nil]
    rw [hlast] at h
    simp [hnone, sizes, h]
  | some a =>
    have hmem : a.2 ∈ options items := by
      rw [← hsnd]
      exact List.mem_map_of_mem (List.mem_of_getLast? hlast)
    have hsome : options items ≠ [] := List.ne_nil_of_mem hmem
    rw [hlast] at h
    by_cases hsize : IsSize a.2
    · have hsizes : sizes (options items) ≠ [] :=
        List.ne_nil_of_mem (List.mem_map_of_mem (List.mem_filter.mpr ⟨hmem, by simpa using hsize⟩))
      simp [h, hsize, hsizes, hsome]
    · simp [h, hsize, hsome]

/-- The options do what they should exactly on regular fields. -/
theorem vendor_options_iff (base : ℕ) (p : NetParams) (hfield : OptionField items len m)
    (hcheck : (bootpCheckPkt bootpID dest src len).value m = 0) :
    Taken (options items) p ((bootpHandler bootpID base dest src len p).value m) ↔
      Regular items base p := by
  rw [bootpHandler_value base p hfield hcheck]
  have hfirst (q : Param) (hq : q ∈ params) :
      q.get ((placed optionsStart items).foldl (apply base) p) =
        (options items).foldl q.take (q.get p) := by
    rw [get_foldl hq, map_snd_placed]
  have hlast := netBootFileSize_foldl base (placed optionsStart items) p
  have hsize := size_iff p hlast
  generalize (placed optionsStart items).foldl (apply base) p = p' at hfirst hsize ⊢
  constructor
  · intro h
    obtain ⟨hlast, hother, hnone⟩ := hsize.mp ⟨h.size, h.noSize⟩
    refine ⟨fun q hq ↦ (firstWins_iff _ _).mp ?_, hlast, hother, hnone⟩
    rw [← hfirst q hq]
    exact h.first q hq
  · intro h
    obtain ⟨hsome, hzero⟩ := hsize.mpr ⟨h.lastSize, h.lastOther, h.noOption⟩
    refine ⟨fun q hq ↦ ?_, hsome, hzero⟩
    rw [hfirst q hq]
    exact (firstWins_iff _ _).mpr (h.first q hq)

end Handler

/-- The header of a reply to the request `1 2 3 4`. -/
def replyHeader : List UInt8 := [2, 1, 6, 0, 1, 2, 3, 4] ++ List.replicate 228 0

theorem replyHeader_length : replyHeader.length = bpVend := by
  rw [replyHeader, List.length_append, List.length_replicate]
  rfl

/-- A boot file of 18 blocks. -/
def fileSize : Opt where
  code := 13
  data := [0, 18]
  code_ne_pad := by decide
  code_ne_end := by decide
  length_lt := by decide
  length_fixed := by decide
  length_type := by decide

/-- A mask, a pad and a host name. -/
def maskAndName : List Item :=
  [.option subnetMask, .pad, .option (textOption 12 40 97 (by decide) (by decide))]

theorem regular_maskAndName : Regular maskAndName 0 noParams := by
  refine ⟨?_, ?_, ?_, ?_⟩
  · decide +kernel
  · decide +kernel
  · decide +kernel
  · decide +kernel

theorem vendor_options_iff_maskAndName :
    Taken (options maskAndName) noParams
      ((bootpHandler [1, 2, 3, 4] 0 68 67 (packetLen maskAndName) noParams).value
        (packetWith replyHeader maskAndName)) :=
  (vendor_options_iff 0 noParams (optionField_packetWith replyHeader_length maskAndName)
    (by decide +kernel)).mpr regular_maskAndName

def sizeAndMask : List Item := [.option fileSize, .option subnetMask]

/-- The mask clears the boot file size. -/
theorem vendor_options_size_lost :
    OptionField sizeAndMask (packetLen sizeAndMask) (packetWith replyHeader sizeAndMask) ∧
      (bootpCheckPkt [1, 2, 3, 4] 68 67 (packetLen sizeAndMask)).value
        (packetWith replyHeader sizeAndMask) = 0 ∧
      ¬ Taken (options sizeAndMask) noParams
        ((bootpHandler [1, 2, 3, 4] 0 68 67 (packetLen sizeAndMask) noParams).value
          (packetWith replyHeader sizeAndMask)) := by
  refine ⟨optionField_packetWith replyHeader_length sizeAndMask, by decide +kernel, fun h ↦ ?_⟩
  exact absurd (h.size (by decide)) (by decide +kernel)

end UBoot.Net.VendorOptions
