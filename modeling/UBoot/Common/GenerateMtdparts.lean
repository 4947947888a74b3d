import UBoot.Common.MtdpartsRoundTrip
import UBoot.Lib.WriteLog

namespace UBoot.Common.GenerateMtdparts

open Lib Lib.CString Lib.Memory Lib.WriteLog CmdJffs2 MtdpartsText MtdpartsRoundTrip

def generateParts (numParts : UInt16) :
    ℕ → Option PartInfo → List PartInfo → Sink → Except Sink Sink
  | _, _, [], s => .ok s
  | partCnt, prev, part :: parts, s => do
    let s ← emit s (memsizeFormat part.size)
    let s ← emit s (offsetText prev part)
    let s ← emit s (nameText part)
    let s ← emit s (maskFlagsText part)
    let s ← emit s (if partCnt + 1 < numParts.toNat then [0x2c] else [])
    generateParts numParts (partCnt + 1) (some part) parts s

def generateDevices : List Device → Sink → Except Sink Sink
  | [], s => .ok s
  | dev :: devices, s => do
    let s ← emit s (dev.id.mtdId ++ [0x3a])
    let s ← generateParts dev.numParts 0 none dev.parts s
    let s ← emit s (if devices = [] then [] else [0x3b])
    generateDevices devices s

/-- What the function returns, and the buffer, which is `last_parts` in all calls. -/
def generateMtdparts (devices : List Device) (buf : Mem) (buflen : ℕ) : ℕ × Sink :=
  let s : Sink := ⟨buf, [], 0, buflen - 1⟩
  if devices = [] then (0, s.store [0])
  else
    -- `sprintf` stores a terminator, too, and `maxlen` stays as it is
    let s := { s.store (ascii "mtdparts=" ++ [0]) with pos := 9 }
    match generateDevices devices s with
    | .ok s => (0, s.store [0])
    | .error s => (1, { s with pos := 0 }.store [0])

/-- The complete string. -/
def mtdpartsText (devices : List Device) : CStr :=
  if devices = [] then [] else ascii "mtdparts=" ++ devicesText devices

structure Respects (devices : List Device) (buf : Mem) (buflen : ℕ) : Prop where
  inside : ∀ k ∈ (generateMtdparts devices buf buflen).2.stored, k < buflen
  ret : (generateMtdparts devices buf buflen).1 = 0 ↔ (mtdpartsText devices).length < buflen
  text : (generateMtdparts devices buf buflen).1 = 0 →
    bytes (generateMtdparts devices buf buflen).2.buf 0 ((mtdpartsText devices).length + 1) =
      mtdpartsText devices ++ [0]

section Fragments

def partsFragments (numParts : UInt16) : ℕ → Option PartInfo → List PartInfo → List CStr
  | _, _, [] => []
  | partCnt, prev, part :: parts =>
    memsizeFormat part.size :: offsetText prev part :: nameText part :: maskFlagsText part ::
      (if partCnt + 1 < numParts.toNat then [0x2c] else []) ::
        partsFragments numParts (partCnt + 1) (some part) parts

/-- The fragments behind `mtdparts=`, each with the separator that is counted with it. -/
def devicesFragments : List Device → List CStr
  | [] => []
  | dev :: devices =>
    (dev.id.mtdId ++ [0x3a]) :: (partsFragments dev.numParts 0 none dev.parts ++
      (if devices = [] then [] else [0x3b]) :: devicesFragments devices)

theorem generateParts_eq (n : UInt16) (cnt : ℕ) (prev : Option PartInfo) (parts : List PartInfo)
    (s : Sink) : generateParts n cnt prev parts s = emitAll (partsFragments n cnt prev parts) s := by
  induction parts generalizing cnt prev s with
  | nil => rfl
  | cons part parts ih =>
    simp only [generateParts, partsFragments, emitAll, List.foldlM_cons, ih]

theorem generateDevices_eq (devices : List Device) (s : Sink) :
    generateDevices devices s = emitAll (devicesFragments devices) s := by
  induction devices generalizing s with
  | nil => rfl
  | cons dev devices ih =>
    simp only [generateDevices, devicesFragments, emitAll, List.foldlM_cons, List.foldlM_append, ih,
      generateParts_eq]

end Fragments

section Text

/-- Two texts that are different at a place that both have. -/
def Differ (a b : CStr) : Prop :=
  ∃ (pre : CStr) (c d : UInt8) (ra rb : CStr), a = pre ++ c :: ra ∧ b = pre ++ d :: rb ∧ c ≠ d

theorem Differ.append_left {a b : CStr} (h : Differ a b) (pre : CStr) :
    Differ (pre ++ a) (pre ++ b) := by
  obtain ⟨p, c, d, ra, rb, rfl, rfl, hne⟩ := h
  exact ⟨pre ++ p, c, d, ra, rb, by rw [List.append_assoc], by rw [List.append_assoc], hne⟩

theorem Differ.append_right {a b : CStr} (h : Differ a b) (ta tb : CStr) :
    Differ (a ++ ta) (b ++ tb) := by
  obtain ⟨p, c, d, ra, rb, rfl, rfl, hne⟩ := h
  exact ⟨p, c, d, ra ++ ta, rb ++ tb, by simp, by simp, hne⟩

theorem Differ.ne {a b : CStr} (h : Differ a b) : a ≠ b := by
  obtain ⟨p, c, d, ra, rb, rfl, rfl, hne⟩ := h
  intro heq
  exact hne (List.cons.inj (List.append_cancel_left heq)).1

variable {n : UInt16} {cnt : ℕ} {parts : List PartInfo}

theorem partsFragments_cons (prev : Option PartInfo) (part : PartInfo) :
    (partsFragments n cnt prev (part :: parts)).flatten = partText prev part ++
      ((if cnt + 1 < n.toNat then [0x2c] else []) ++
        (partsFragments n (cnt + 1) (some part) parts).flatten) := by
  simp [partsFragments, partText]

theorem partsFragments_eq (prev : Option PartInfo) (h : cnt + parts.length = n.toNat) :
    (partsFragments n cnt prev parts).flatten = partsText prev parts := by
  induction parts generalizing cnt prev with
  | nil => rfl
  | cons part parts ih =>
    rw [List.length_cons] at h
    rw [partsFragments_cons, ih (some part) (by omega), partsText]
    have hcomma : cnt + 1 < n.toNat ↔ ¬ parts = [] := by
      rw [← List.length_eq_zero_iff]
      omega
    by_cases hnil : parts = []
    · rw [if_neg (by rw [hcomma]; exact not_not_intro hnil), if_pos hnil]
    · rw [if_pos (hcomma.mpr hnil), if_neg hnil]

theorem partsFragments_length (prev : Option PartInfo) (h : n.toNat ≤ cnt + parts.length) :
    (partsFragments n cnt prev parts).flatten.length ≤ (partsText prev parts).length := by
  induction parts generalizing cnt prev with
  | nil => exact le_rfl
  | cons part parts ih =>
    rw [List.length_cons] at h
    have hrest := ih (some part) (show n.toNat ≤ cnt + 1 + parts.length by omega)
    have hcomma : (if cnt + 1 < n.toNat then [0x2c] else [] : CStr).length ≤
        (if parts = [] then [] else [0x2c] : CStr).length := by
      split_ifs with hlt hnil
      · rw [hnil, List.length_nil] at h
        omega
      · exact le_rfl
      all_goals exact Nat.zero_le _
    rw [partsFragments_cons, partsText]
    simp only [List.length_append]
    omega

/-- A counter that has wrapped leaves a comma out. -/
theorem partsFragments_differ (prev : Option PartInfo) (h : n.toNat < cnt + parts.length)
    (htwo : 2 ≤ parts.length) :
    Differ (partsFragments n cnt prev parts).flatten (partsText prev parts) := by
  induction parts generalizing cnt prev with
  | nil => exact absurd htwo (by decide)
  | cons part parts ih =>
    rw [List.length_cons] at h htwo
    have hne : parts ≠ [] := by
      rintro rfl
      exact absurd htwo (by decide)
    rw [partsFragments_cons, partsText, if_neg hne]
    apply Differ.append_left
    by_cases hlt : cnt + 1 < n.toNat
    · rw [if_pos hlt]
      exact (ih (some part) (by omega) (by omega)).append_left _
    · obtain ⟨next, rest, rfl⟩ := List.exists_cons_of_ne_nil hne
      rw [if_neg hlt, List.nil_append, partsFragments_cons, partText]
      have hdigit := first_memsizeFormat next.size ([] : CStr)
      rw [List.append_nil] at hdigit
      cases hsize : memsizeFormat next.size with
      | nil =>
        rw [hsize] at hdigit
        exact absurd hdigit (by decide)
      | cons c cs =>
        rw [hsize] at hdigit
        refine ⟨[], c, 0x2c, _, _, rfl, rfl, ?_⟩
        rintro rfl
        rw [first_cons] at hdigit
        exact absurd hdigit (by decide)

theorem devicesFragments_cons (dev : Device) (devices : List Device) :
    (devicesFragments (dev :: devices)).flatten = dev.id.mtdId ++ ([0x3a] ++
      ((partsFragments dev.numParts 0 none dev.parts).flatten ++
        ((if devices = [] then [] else [0x3b]) ++ (devicesFragments devices).flatten))) := by
  simp [devicesFragments]

theorem devicesText_cons (dev : Device) (devices : List Device) :
    devicesText (dev :: devices) = dev.id.mtdId ++ ([0x3a] ++ (partsText none dev.parts ++
      ((if devices = [] then [] else [0x3b]) ++ devicesText devices))) := by
  simp [devicesText, deviceText]

variable {devices : List Device}

theorem devicesFragments_eq (h : ∀ dev ∈ devices, dev.parts.length < 65536) :
    (devicesFragments devices).flatten = devicesText devices := by
  induction devices with
  | nil => rfl
  | cons dev devices ih =>
    have hcount : 0 + dev.parts.length = dev.numParts.toNat := by
      have hlt := h dev List.mem_cons_self
      rw [Device.numParts_toNat]
      omega
    rw [devicesFragments_cons, devicesText_cons, partsFragments_eq none hcount,
      ih fun d hd ↦ h d (List.mem_cons_of_mem dev hd)]

theorem devicesFragments_length (devices : List Device) :
    (devicesFragments devices).flatten.length ≤ (devicesText devices).length := by
  induction devices with
  | nil => exact le_rfl
  | cons dev devices ih =>
    have hparts : (partsFragments dev.numParts 0 none dev.parts).flatten.length ≤
        (partsText none dev.parts).length := by
      apply partsFragments_length
      rw [Device.numParts_toNat, Nat.zero_add]
      exact Nat.mod_le _ _
    rw [devicesFragments_cons, devicesText_cons]
    simp only [List.length_append]
    omega

theorem devicesFragments_differ {dev : Device} (hdev : dev ∈ devices)
    (h : 65536 ≤ dev.parts.length) :
    Differ (devicesFragments devices).flatten (devicesText devices) := by
  induction devices with
  | nil => exact absurd hdev List.not_mem_nil
  | cons d devices ih =>
    rw [devicesFragments_cons, devicesText_cons]
    apply Differ.append_left
    apply Differ.append_left
    by_cases hd : d.parts.length < 65536
    · have hcount : 0 + d.parts.length = d.numParts.toNat := by
        rw [Device.numParts_toNat]
        omega
      rw [partsFragments_eq none hcount]
      apply Differ.append_left
      apply Differ.append_left
      rcases List.mem_cons.mp hdev with rfl | hin
      · omega
      · exact ih hin
    · apply Differ.append_right
      apply partsFragments_differ
      · rw [Device.numParts_toNat]
        omega
      · omega

end Text

/-- The bytes of the first fragments. -/
def lead (devices : List Device) (n : ℕ) : ℕ := ((devicesFragments devices).take n).flatten.length

/-- The bytes of all fragments. -/
def total (devices : List Device) : ℕ := (devicesFragments devices).flatten.length

/-- Where the nine bytes of the prefix, for which `maxlen` is not reduced, do not matter. -/
structure Roomy (devices : List Device) (buflen : ℕ) : Prop where
  header : 10 ≤ buflen
  lead : ∀ n, 9 + lead devices n ≤ buflen ∨ buflen ≤ GenerateMtdparts.lead devices n
  whole : total devices < buflen →
    10 + total devices ≤ buflen ∧ ∀ dev ∈ devices, dev.parts.length < 65536

section Respects

variable {devices : List Device} {buf : Mem} {buflen : ℕ}

theorem mtdpartsText_length (hne : devices ≠ []) :
    (mtdpartsText devices).length = 9 + (devicesText devices).length := by
  rw [mtdpartsText, if_neg hne, List.length_append]
  rfl

theorem lead_le_total (devices : List Device) (n : ℕ) : lead devices n ≤ total devices := by
  have hle := length_take_le (devicesFragments devices)
    (Nat.le_max_left n (devicesFragments devices).length)
  rw [List.take_of_length_le (Nat.le_max_right n _)] at hle
  exact hle

/-- The state behind the prefix. -/
def started (buf : Mem) (buflen : ℕ) : Sink :=
  { (⟨buf, [], 0, buflen - 1⟩ : Sink).store (ascii "mtdparts=" ++ [0]) with pos := 9 }

theorem put_stored (bs : CStr) (k : ℕ) :
    k ∈ ((started buf buflen).put bs).stored ↔ k < max 10 (9 + bs.length) := by
  change k ∈ ([] ++ List.range' 0 10) ++ List.range' 9 bs.length ↔ _
  rw [List.nil_append, List.mem_append, List.mem_range'_1, List.mem_range'_1]
  omega

theorem generateMtdparts_of_lt (hne : devices ≠ []) (h : total devices < buflen) :
    generateMtdparts devices buf buflen =
      (0, ((started buf buflen).put (devicesFragments devices).flatten).store [0]) := by
  have hrun : generateDevices devices (started buf buflen) =
      .ok ((started buf buflen).put (devicesFragments devices).flatten) := by
    rw [generateDevices_eq]
    apply emitAll_of_le
    change total devices ≤ buflen - 1
    omega
  rw [generateMtdparts]
  simp only [if_neg hne]
  rw [← started, hrun]

theorem generateMtdparts_of_le (buf : Mem) (hne : devices ≠ []) (hbuflen : 1 ≤ buflen)
    (h : buflen ≤ total devices) :
    ∃ n, generateMtdparts devices buf buflen = (1, { (started buf buflen).put
        ((devicesFragments devices).take n).flatten with pos := 0 }.store [0]) ∧
      lead devices n < buflen ∧ buflen ≤ lead devices (n + 1) := by
  have hroom : (started buf buflen).room = buflen - 1 := rfl
  obtain ⟨n, hrun, hle, hlt⟩ :=
    emitAll_of_lt (started buf buflen) (devicesFragments devices)
      (by change buflen - 1 < total devices; omega)
  refine ⟨n, ?_, ?_, ?_⟩
  · rw [generateMtdparts]
    simp only [if_neg hne]
    rw [← started, generateDevices_eq, hrun]
  · rw [lead]
    omega
  · rw [lead]
    omega

theorem apply_at {m : Mem} {off n : ℕ} {a b : List UInt8} {c : UInt8}
    (h : bytes m off n = a ++ c :: b) : m (off + a.length) = c := by
  rw [apply_of_bytes h (by rw [List.length_append, List.length_cons]; omega)]
  simp

/-- The buffer when all fragments have been stored. -/
def filled (devices : List Device) (buf : Mem) (buflen : ℕ) : Sink :=
  ((started buf buflen).put (devicesFragments devices).flatten).store [0]

theorem filled_bytes (devices : List Device) (buf : Mem) (buflen : ℕ) :
    bytes (filled devices buf buflen).buf 0 (9 + (total devices + 1)) =
      ascii "mtdparts=" ++ ((devicesFragments devices).flatten ++ [0]) := by
  have hbuf : (filled devices buf buflen).buf = store (store buf 0 (ascii "mtdparts=" ++ [0])) 9
      ((devicesFragments devices).flatten ++ [0]) :=
    store_store _ 9 (devicesFragments devices).flatten [0]
  have hlength : ((devicesFragments devices).flatten ++ [0]).length = total devices + 1 :=
    List.length_append
  have hprefix := (bytes_eq_append (bytes_store buf 0 (ascii "mtdparts=" ++ [0]))).1
  change bytes _ 0 9 = ascii "mtdparts=" at hprefix
  rw [hbuf, bytes_append, bytes_store_of_lt _ _ (by omega), hprefix, Nat.zero_add,
    bytes_store_of_length _ hlength]

theorem filled_text_iff (buf : Mem) (buflen : ℕ) (hne : devices ≠ []) :
    bytes (filled devices buf buflen).buf 0 ((mtdpartsText devices).length + 1) =
        mtdpartsText devices ++ [0] ↔ ∀ dev ∈ devices, dev.parts.length < 65536 := by
  have hfilled := filled_bytes devices buf buflen
  constructor
  · intro h
    by_contra hwrap
    simp only [not_forall, Nat.not_lt] at hwrap
    obtain ⟨dev, hdev, hlt⟩ := hwrap
    -- the two texts differ behind the place where the first comma is missing
    obtain ⟨pre, c, d, ra, rb, ha, hb, hne'⟩ := devicesFragments_differ hdev hlt
    have hc : bytes (filled devices buf buflen).buf 0 (9 + (total devices + 1)) =
        (ascii "mtdparts=" ++ pre) ++ c :: (ra ++ [0]) := by
      rw [hfilled, ha]
      simp
    have hd : bytes (filled devices buf buflen).buf 0 ((mtdpartsText devices).length + 1) =
        (ascii "mtdparts=" ++ pre) ++ d :: (rb ++ [0]) := by
      rw [h, mtdpartsText, if_neg hne, hb]
      simp
    exact hne' ((apply_at hc).symm.trans (apply_at hd))
  · intro h
    have heq := devicesFragments_eq h
    rw [mtdpartsText_length hne, Nat.add_assoc, mtdpartsText, if_neg hne, List.append_assoc, ← heq]
    exact hfilled

theorem filled_stored (k : ℕ) :
    k ∈ (filled devices buf buflen).stored ↔ k < 10 + total devices := by
  change k ∈ ((started buf buflen).put (devicesFragments devices).flatten).stored ++
    List.range' (9 + total devices) 1 ↔ _
  rw [List.mem_append, put_stored, List.mem_range'_1, ← total]
  omega

theorem respects_of_lt (hne : devices ≠ []) (h : total devices < buflen) :
    Respects devices buf buflen ↔
      10 + total devices ≤ buflen ∧ ∀ dev ∈ devices, dev.parts.length < 65536 := by
  have hrun : generateMtdparts devices buf buflen = (0, filled devices buf buflen) :=
    generateMtdparts_of_lt hne h
  have hinside : (∀ k ∈ (filled devices buf buflen).stored, k < buflen) ↔
      10 + total devices ≤ buflen := by
    simp only [filled_stored]
    exact forall_lt_iff_le
  have htext := filled_text_iff buf buflen hne
  constructor
  · intro hrespects
    have h₁ := hrespects.inside
    have h₂ := hrespects.text
    rw [hrun] at h₁ h₂
    exact ⟨hinside.mp h₁, htext.mp (h₂ rfl)⟩
  · rintro ⟨hroom, hcount⟩
    refine ⟨?_, ?_, ?_⟩ <;> rw [hrun]
    · exact hinside.mpr hroom
    · have hlength := congrArg List.length (devicesFragments_eq hcount)
      rw [← total] at hlength
      rw [mtdpartsText_length hne, ← hlength]
      exact iff_of_true rfl (by omega)
    · exact fun _ ↦ htext.mpr hcount

theorem respects_of_le (hne : devices ≠ []) (hbuflen : 1 ≤ buflen) (h : buflen ≤ total devices) :
    Respects devices buf buflen ↔ 10 ≤ buflen ∧
      ∀ n, 9 + lead devices n ≤ buflen ∨ buflen ≤ lead devices n := by
  obtain ⟨m, hrun, hlt, hle⟩ := generateMtdparts_of_le buf hne hbuflen h
  have hinside : (∀ k ∈ (generateMtdparts devices buf buflen).2.stored, k < buflen) ↔
      max 10 (9 + lead devices m) ≤ buflen := by
    rw [hrun, ← forall_lt_iff_le]
    apply forall_congr'
    intro k
    have hstored : k ∈ ((started buf buflen).put ((devicesFragments devices).take m).flatten).stored ++
        List.range' 0 1 ↔ k < max 10 (9 + lead devices m) := by
      rw [List.mem_append, put_stored, List.mem_range'_1, ← lead]
      omega
    rw [← hstored]
    rfl
  have hlength := devicesFragments_length devices
  rw [← total] at hlength
  constructor
  · intro hrespects
    have hmax := hinside.mp hrespects.inside
    refine ⟨by omega, fun n ↦ ?_⟩
    rcases Nat.lt_or_ge m n with hn | hn
    · exact Or.inr (hle.trans (length_take_le _ hn))
    · have hmono : lead devices n ≤ lead devices m := length_take_le _ hn
      exact Or.inl (by omega)
  · rintro ⟨hheader, hlead⟩
    have hm := hlead m
    refine ⟨hinside.mpr (by omega), ?_, ?_⟩
    · rw [hrun, mtdpartsText_length hne]
      exact iff_of_false Nat.one_ne_zero (by omega)
    · rw [hrun]
      intro hret
      cases hret

end Respects

theorem generateMtdparts_respects_iff (devices : List Device) (buf : Mem) (buflen : ℕ)
    (hbuflen : 1 ≤ buflen) :
    Respects devices buf buflen ↔ devices = [] ∨ Roomy devices buflen := by
  by_cases hne : devices = []
  · subst hne
    refine iff_of_true ⟨?_, ?_, ?_⟩ (Or.inl rfl)
    · intro k hk
      change k ∈ [] ++ List.range' 0 1 at hk
      rw [List.nil_append, List.mem_range'_1] at hk
      omega
    · exact iff_of_true rfl hbuflen
    · intro _
      exact bytes_store buf 0 [0]
  · rw [or_iff_right hne]
    rcases Nat.lt_or_ge (total devices) buflen with h | h
    · rw [respects_of_lt hne h]
      constructor
      · rintro ⟨hroom, hcount⟩
        refine ⟨by omega, fun n ↦ Or.inl ?_, fun _ ↦ ⟨hroom, hcount⟩⟩
        have hle := lead_le_total devices n
        omega
      · exact fun hroomy ↦ hroomy.whole h
    · rw [respects_of_le hne hbuflen h]
      constructor
      · rintro ⟨hheader, hlead⟩
        exact ⟨hheader, hlead, fun hlt ↦ absurd hlt (Nat.not_lt.mpr h)⟩
      · exact fun hroomy ↦ ⟨hroomy.header, hroomy.lead⟩

section Sample

theorem generateMtdparts_respects_sample :
    Respects (sampleParse "mtdparts=nor:64k,128k@0x20000(root)ro;big:4k(a)") (fun _ ↦ 0) 512 := by
  apply (generateMtdparts_respects_iff _ _ 512 (by decide)).mpr
  have htotal : total (sampleParse "mtdparts=nor:64k,128k@0x20000(root)ro;big:4k(a)") = 35 := by
    decide +kernel
  refine Or.inr ⟨by decide, fun n ↦ Or.inl ?_, fun _ ↦ ⟨by omega, by decide +kernel⟩⟩
  have hle := lead_le_total (sampleParse "mtdparts=nor:64k,128k@0x20000(root)ro;big:4k(a)") n
  omega

def longName : CStr := List.replicate 482 0x61

/-- The value of `mtdparts` has 509 bytes. -/
def longMtdparts : CStr := ascii "mtdparts=nor:64k,64k(" ++ (longName ++ ascii "),-(b)")

/-- What is left without the first partition. -/
def longDevices : List Device :=
  [⟨sampleIds.head (by decide),
    [⟨longName, false, 65536, 65536, 0⟩, ⟨ascii "b", false, 132096, 131072, 0⟩]⟩]

theorem generateMtdparts_overflows : Reachable sampleHw sampleIds longDevices ∧
    ¬ Respects longDevices (fun _ ↦ 0) 512 := by
  refine ⟨?_, ?_⟩
  · have hparse : ∃ devices, parseMtdparts sampleHw sampleIds longMtdparts = some devices ∧
        partDel devices 0 0 = some longDevices := by
      refine ⟨[⟨sampleIds.head (by decide), ⟨autoNameOf 65536 0xffffffff, true, 65536, 0, 0⟩ ::
        ⟨longName, false, 65536, 65536, 0⟩ :: [⟨ascii "b", false, 132096, 131072, 0⟩]⟩], ?_⟩
      decide +kernel
    obtain ⟨devices, hparse, hdel⟩ := hparse
    exact .del (.parse hparse) hdel
  · have htotal : total longDevices = 503 := by decide +kernel
    have hne : longDevices ≠ [] := List.cons_ne_nil _ _
    rw [respects_of_lt hne (by omega)]
    omega

end Sample

end UBoot.Common.GenerateMtdparts
