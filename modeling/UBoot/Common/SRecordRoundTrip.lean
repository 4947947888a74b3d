import Mathlib.Algebra.GroupWithZero.Nat
import UBoot.Common.CmdLoad

namespace UBoot.Common.SRecordRoundTrip

open Lib.CString Lib.Memory LibGeneric.Vsprintf SRecord CmdLoad

section Text

theorem hex1Bin_hexDigit : ∀ d < 16, hex1Bin (hexDigit d) = some d := by
  decide

theorem hex2Bin_hexPair {b : ℕ} (h : b < 256) (rest : CStr) :
    hex2Bin (hexPair b ++ rest) = some b := by
  have hvalue : b / 16 * 16 + b % 16 = b := by omega
  simp only [hexPair, List.cons_append, List.nil_append, hex2Bin,
    hex1Bin_hexDigit (b / 16) (by omega), hex1Bin_hexDigit (b % 16) (by omega)]
  exact congrArg some hvalue

/-- The digits of a list of bytes. -/
def hexText (vs : List ℕ) : CStr := vs.flatMap hexPair

theorem hexText_append (vs ws : List ℕ) : hexText (vs ++ ws) = hexText vs ++ hexText ws :=
  List.flatMap_append

theorem hexText_length (vs : List ℕ) : (hexText vs).length = 2 * vs.length := by
  induction vs with
  | nil => rfl
  | cons v vs ih =>
    rw [hexText, List.flatMap_cons, List.length_append, ← hexText, ih, List.length_cons]
    simp [hexPair]
    omega

theorem hexBytes_hexText {vs : List ℕ} (h : ∀ v ∈ vs, v < 256) (rest : CStr) :
    hexBytes vs.length (hexText vs ++ rest) = some (vs, rest) := by
  induction vs with
  | nil => rfl
  | cons v vs ih =>
    have hv := h v List.mem_cons_self
    have htail := ih fun w hw ↦ h w (List.mem_cons_of_mem v hw)
    have hdrop : (hexPair v ++ (hexText vs ++ rest)).drop 2 = hexText vs ++ rest := rfl
    rw [hexText, List.flatMap_cons, ← hexText, List.append_assoc, List.length_cons, hexBytes,
      hex2Bin_hexPair hv, hdrop, htail]
    rfl

/-- A character of a record behind the `S`. -/
def Plain (c : UInt8) : Prop := c ∉ ([0x0d, 0x0a, 0, 0x03, 0x53] : List UInt8)

theorem plain_hexDigit : ∀ d < 16, Plain (hexDigit d) := by
  unfold Plain
  decide

theorem plain_hexText {vs : List ℕ} (h : ∀ v ∈ vs, v < 256) : ∀ c ∈ hexText vs, Plain c := by
  intro c hc
  obtain ⟨v, hv, hc⟩ := List.mem_flatMap.mp hc
  have hlt := h v hv
  rcases List.mem_cons.mp hc with rfl | hc
  · exact plain_hexDigit _ (by omega)
  · rw [List.mem_singleton.mp hc]
    exact plain_hexDigit _ (by omega)

end Text

section Records

/-- The bytes of an address, the high byte first. -/
def addressBytes (a : ℕ) : List ℕ := [a / 16777216, a / 65536 % 256, a / 256 % 256, a % 256]

theorem addressBytes_lt {a : ℕ} (h : a < 4294967296) : ∀ v ∈ addressBytes a, v < 256 := by
  simp only [addressBytes, List.mem_cons, List.not_mem_nil, or_false, forall_eq_or_imp, forall_eq]
  omega

theorem addressBytes_value {a : ℕ} :
    (addressBytes a).foldl (fun a v ↦ a * 256 + v) 0 = a := by
  simp only [addressBytes, List.foldl_cons, List.foldl_nil]
  omega

/-- The checksum over a record with this address and data. -/
def recordSum (a : ℕ) (vs : List ℕ) : ℕ := vs.length + 5 + (addressBytes a).sum + vs.sum

/-- The characters of a data record without the newline. -/
def dataLine (a : ℕ) (vs : List ℕ) : CStr :=
  0x53 :: 0x33 :: hexText ((vs.length + 5) :: addressBytes a ++ vs ++ [255 - recordSum a vs % 256])

theorem srecDecode_dataLine {a : ℕ} {vs : List ℕ} (ha : a < 4294967296) (hvs : ∀ v ∈ vs, v < 256)
    (hlen : vs.length ≤ 16) :
    srecDecode (dataLine a vs) = .ok ⟨.data4, vs.length, a, vs.map UInt8.ofNat⟩ := by
  have hskip (text : CStr) :
      (List.dropWhile (· != 0x53) (0x53 :: 0x33 :: text)).drop 1 = 0x33 :: text := rfl
  have hdrop (text : CStr) : (hexPair (vs.length + 5) ++ text).drop 2 = text := rfl
  have haddr (text : CStr) : hexBytes 4 (hexText (addressBytes a) ++ text) =
      some (addressBytes a, text) := hexBytes_hexText (addressBytes_lt ha) text
  have htype : recordType 0x33 = some (.data4, 4) := rfl
  have hcount : ((vs.length + 5 : ℕ) : ℤ) - ((4 : ℕ) + 1) = vs.length := by omega
  have htext (k : ℕ) : hexText ((vs.length + 5) :: addressBytes a ++ vs ++ [k]) =
      hexPair (vs.length + 5) ++ (hexText (addressBytes a) ++ (hexText vs ++ hexPair k)) := by
    simp [hexText]
  have hsum := hex2Bin_hexPair (b := 255 - recordSum a vs % 256) (by omega) []
  rw [List.append_nil] at hsum
  rw [dataLine, srecDecode, hskip, htext]
  simp only [hex2Bin_hexPair (show vs.length + 5 < 256 by omega), orError, htype, hdrop, haddr,
    reduceCtorEq, if_false, hcount, Int.toNat_natCast, hexBytes_hexText hvs, hsum, bind,
    Except.bind]
  rw [recordSum, if_neg (not_not_intro rfl), addressBytes_value]
  rfl

theorem dataLine_plain {a : ℕ} {vs : List ℕ} (ha : a < 4294967296) (hvs : ∀ v ∈ vs, v < 256)
    (hlen : vs.length ≤ 16) : ∃ cs, dataLine a vs = 0x53 :: cs ∧ (∀ c ∈ cs, Plain c) ∧
      cs.length = 2 * vs.length + 13 := by
  refine ⟨_, rfl, ?_, ?_⟩
  · intro c hc
    rcases List.mem_cons.mp hc with rfl | hc
    · unfold Plain
      decide
    · refine plain_hexText ?_ c hc
      intro v hv
      simp only [List.cons_append, List.mem_cons, List.mem_append, List.not_mem_nil,
        or_false] at hv
      rcases hv with rfl | (hv | hv) | rfl
      · omega
      · exact addressBytes_lt ha v hv
      · exact hvs v hv
      · omega
  · rw [List.length_cons, hexText_length]
    simp [addressBytes]
    omega

end Records

section Receiver

/-- No character that belongs to a record, but for the `S`, comes while the receiver is still busy
with the one in front of it. -/
def Calm (input : Input) : Prop := ∀ x ∈ input, x.2 = true → x.1 ∈ ([0x0d, 0x0a, 0x53] : List UInt8)

def chars (input : Input) : CStr := input.map (·.1)

theorem exists_of_chars {input : Input} {c : UInt8} {cs : CStr} (h : chars input = c :: cs) :
    ∃ early input', input = (c, early) :: input' ∧ chars input' = cs := by
  obtain ⟨⟨_, early⟩, input', rfl, rfl, hchars⟩ := List.map_eq_cons_iff.mp h
  exact ⟨early, input', rfl, hchars⟩

theorem Calm.tail {x : UInt8 × Bool} {input : Input} (h : Calm (x :: input)) : Calm input :=
  fun y hy ↦ h y (List.mem_cons_of_mem x hy)

theorem Calm.plain {c : UInt8} {early : Bool} {input : Input} (h : Calm ((c, early) :: input))
    (hc : Plain c) : early = false := by
  cases early with
  | false => rfl
  | true =>
    have hmem := h (c, true) List.mem_cons_self rfl
    unfold Plain at hc
    simp_all

/-- What is left behind a record: its newline, unless the carriage return was taken for it. -/
def Behind (rest : CStr) (input : Input) : Prop :=
  Calm input ∧ (chars input = 0x0a :: rest ∨ chars input = rest)

theorem readRecord_rest {cs rest : CStr} (hcs : ∀ c ∈ cs, Plain c) {room : ℕ}
    (hroom : cs.length < room) {input : Input} (hcalm : Calm input)
    (hinput : chars input = cs ++ 0x0d :: 0x0a :: rest) :
    (ctrlc input).1 = false ∧ ∃ input', readRecord room (ctrlc input).2 = some (some cs, input') ∧
      Behind rest input' ∧ input'.length < input.length := by
  induction cs generalizing room input with
  | nil =>
    cases room with
    | zero => cases hroom
    | succ room =>
      obtain ⟨early, input, rfl, hcr⟩ := exists_of_chars hinput
      obtain ⟨early', input, rfl, hnl⟩ := exists_of_chars hcr
      cases early with
      | false =>
        exact ⟨rfl, _, if_pos (Or.inl rfl), ⟨hcalm.tail, Or.inl hcr⟩, by simp⟩
      | true =>
        exact ⟨rfl, _, if_pos (Or.inr rfl), ⟨hcalm.tail.tail, Or.inr hnl⟩, by simp⟩
  | cons c cs ih =>
    cases room with
    | zero => cases hroom
    | succ room =>
      obtain ⟨early, input, rfl, htail⟩ := exists_of_chars hinput
      have hplain := hcs _ List.mem_cons_self
      have hearly := hcalm.plain hplain
      subst hearly
      obtain ⟨hctrlc, input', hread, hbehind, hlt⟩ :=
        ih (fun d hd ↦ hcs d (List.mem_cons_of_mem _ hd)) (Nat.lt_of_succ_lt_succ hroom)
          hcalm.tail htail
      refine ⟨rfl, input', ?_, hbehind, Nat.lt_succ_of_lt hlt⟩
      simp only [Plain, List.mem_cons, List.not_mem_nil, or_false, not_or] at hplain
      have hstay : (ctrlc ((c, false) :: input)).2 = (c, false) :: input := rfl
      rw [hstay]
      simp [readRecord, hplain, hctrlc, hread]

theorem readRecord_line {cs rest : CStr} (hcs : ∀ c ∈ cs, Plain c) {room : ℕ}
    (hroom : cs.length + 1 < room) {input : Input} (hcalm : Calm input)
    (hinput : chars input = 0x53 :: cs ++ 0x0d :: 0x0a :: rest) :
    ∃ input', readRecord room input = some (some (0x53 :: cs), input') ∧
      Behind rest input' ∧ input'.length < input.length := by
  obtain ⟨early, input, rfl, htail⟩ := exists_of_chars hinput
  cases room with
  | zero => cases hroom
  | succ room =>
    obtain ⟨hctrlc, input', hread, hbehind, hlt⟩ :=
      readRecord_rest hcs (Nat.lt_of_succ_lt_succ hroom) hcalm.tail htail
    refine ⟨input', ?_, hbehind, Nat.lt_succ_of_lt hlt⟩
    simp [readRecord, hctrlc, hread]

variable {offset : ℕ}

/-- The loop ends on this input. -/
def Loads (offset : ℕ) (input : Input) (s : LoadState) (P : Load → Prop) : Prop :=
  ∀ fuel, input.length < fuel → ∃ r, loadLoop offset fuel input s = some r ∧ P r

theorem Loads.of_lt {input input' : Input} {s : LoadState} {P : Load → Prop}
    (hlt : input'.length < input.length)
    (h : ∀ fuel, input'.length < fuel → ∃ r, loadLoop offset (fuel + 1) input s = some r ∧ P r) :
    Loads offset input s P := by
  intro fuel hfuel
  cases fuel with
  | zero => cases hfuel
  | succ fuel => exact h fuel (by omega)

theorem Loads.newline {rest : CStr} {input : Input} {s : LoadState} {P : Load → Prop}
    (h : ∀ input', Calm input' → chars input' = rest → Loads offset input' s P)
    (hinput : Behind rest input) : Loads offset input s P := by
  obtain ⟨hcalm, hnl | hrest⟩ := hinput
  · obtain ⟨early, input, rfl, hinput⟩ := exists_of_chars hnl
    refine Loads.of_lt (Nat.lt_succ_self input.length) fun fuel hfuel ↦ ?_
    have hread : readRecord srecMaxreclen ((0x0a, early) :: input) = some (some [], input) := rfl
    have hempty : srecDecode [] = .ok ⟨.empty, 0, 0, []⟩ := rfl
    obtain ⟨r, hr, hP⟩ := h input hcalm.tail hinput fuel hfuel
    refine ⟨r, ?_, hP⟩
    simp only [loadLoop, hread, hempty, Option.bind_eq_bind, Option.bind_some]
    exact hr
  · exact h input hcalm hrest

section Line

variable {cs rest : CStr} {input : Input} {s s' : LoadState} {P : Load → Prop} {r : Srec}

theorem readRecord_srec (hcs : ∀ c ∈ cs, Plain c) (hlen : cs.length < 500) (hcalm : Calm input)
    (hinput : chars input = 0x53 :: cs ++ 0x0d :: 0x0a :: rest) :
    ∃ input', readRecord srecMaxreclen input = some (some (0x53 :: cs), input') ∧
      Behind rest input' ∧ input'.length < input.length :=
  readRecord_line hcs (by rw [srecMaxreclen]; omega) hcalm hinput

theorem Loads.data (hcs : ∀ c ∈ cs, Plain c) (hlen : cs.length < 500)
    (hdecode : srecDecode (0x53 :: cs) = .ok r) (htype : r.type = .data4)
    (hstore : storeRecord offset r s = some s')
    (h : ∀ input', Calm input' → chars input' = rest → Loads offset input' s' P)
    (hcalm : Calm input) (hinput : chars input = 0x53 :: cs ++ 0x0d :: 0x0a :: rest) :
    Loads offset input s P := by
  obtain ⟨input', hread, hbehind, hlt⟩ := readRecord_srec hcs hlen hcalm hinput
  refine Loads.of_lt hlt fun fuel hfuel ↦ ?_
  obtain ⟨res, hres, hP⟩ := Loads.newline h hbehind fuel hfuel
  refine ⟨res, ?_, hP⟩
  simp only [loadLoop, hread, hdecode, htype, hstore, Option.bind_eq_bind, Option.bind_some]
  exact hres

theorem Loads.start (hcs : ∀ c ∈ cs, Plain c) (hlen : cs.length < 500)
    (hdecode : srecDecode (0x53 :: cs) = .ok r) (htype : r.type = .start)
    (h : ∀ input', Calm input' → chars input' = rest → Loads offset input' s P)
    (hcalm : Calm input) (hinput : chars input = 0x53 :: cs ++ 0x0d :: 0x0a :: rest) :
    Loads offset input s P := by
  obtain ⟨input', hread, hbehind, hlt⟩ := readRecord_srec hcs hlen hcalm hinput
  refine Loads.of_lt hlt fun fuel hfuel ↦ ?_
  obtain ⟨res, hres, hP⟩ := Loads.newline h hbehind fuel hfuel
  refine ⟨res, ?_, hP⟩
  simp only [loadLoop, hread, hdecode, htype, Option.bind_eq_bind, Option.bind_some]
  exact hres

theorem Loads.stop (hcs : ∀ c ∈ cs, Plain c) (hlen : cs.length < 500)
    (hdecode : srecDecode (0x53 :: cs) = .ok r) (htype : r.type = .end4) {size : ℕ}
    (hsize : (((s.endAddr : ℤ) - s.startAddr + 1) % 4294967296).toNat = size)
    (h : ∀ rest', Behind rest rest' → P (.done r.addr size (numberHex 0 size) s.mem rest'))
    (hcalm : Calm input) (hinput : chars input = 0x53 :: cs ++ 0x0d :: 0x0a :: rest) :
    Loads offset input s P := by
  obtain ⟨input', hread, hbehind, hlt⟩ := readRecord_srec hcs hlen hcalm hinput
  refine Loads.of_lt hlt fun fuel _ ↦ ⟨_, ?_, h input' hbehind⟩
  simp only [loadLoop, hread, hdecode, htype, hsize, Option.bind_eq_bind, Option.bind_some]
  rfl

end Line

end Receiver

section Transfer

/-- The state of the receiver when `bs` has been stored at `a`. -/
def received (s : LoadState) (a : ℕ) (bs : List UInt8) : LoadState where
  mem := store s.mem a bs
  startAddr := min s.startAddr a
  endAddr := max s.endAddr (a + bs.length - 1)

theorem received_append (s : LoadState) (a : ℕ) {bs cs : List UInt8} (hbs : bs ≠ []) (hcs : cs ≠ []) :
    received (received s a bs) (a + bs.length) cs = received s a (bs ++ cs) := by
  have hb := List.length_pos_iff.mpr hbs
  have hc := List.length_pos_iff.mpr hcs
  rw [received, received, received, List.length_append]
  congr 1
  · exact store_store s.mem a bs cs
  · dsimp only
    omega
  · dsimp only
    omega

theorem storeRecord_received {a : ℕ} {bs : List UInt8} (s : LoadState) (hbs : bs ≠ [])
    (ha : a + bs.length ≤ 4294967296) :
    storeRecord 0 ⟨.data4, bs.length, a, bs⟩ s = some (received s a bs) := by
  have hb := List.length_pos_iff.mpr hbs
  have haddr : (a + 0) % 4294967296 = a := by omega
  have hlast : ((a : ℤ) + bs.length - 1) % 4294967296 = ((a + bs.length - 1 : ℕ) : ℤ) := by omega
  rw [storeRecord, received]
  simp only [haddr, hlast, Int.toNat_natCast]
  rw [if_neg (by omega)]
  congr 2
  · split_ifs <;> omega
  · split_ifs <;> omega

/-- The values of the bytes in memory. -/
def values (m : Mem) (a n : ℕ) : List ℕ := (bytes m a n).map UInt8.toNat

theorem values_length (m : Mem) (a n : ℕ) : (values m a n).length = n := by
  simp [values]

theorem values_lt (m : Mem) (a n : ℕ) : ∀ v ∈ values m a n, v < 256 := by
  intro v hv
  obtain ⟨c, -, rfl⟩ := List.mem_map.mp hv
  exact c.toNat_lt

theorem values_succ (m : Mem) (a n : ℕ) :
    values m a (n + 1) = values m a n ++ [(m (a + n)).toNat] := by
  simp [values, bytes, List.range_succ]

/-- The bytes that are collected for the next record. -/
structure Pending (m : Mem) (s : SaveState) : Prop where
  data : s.data.take (2 * s.reclen) = hexText (values m s.address s.reclen)
  checksum : s.checksum = (values m s.address s.reclen).sum

theorem collect_pending {m : Mem} {s : SaveState} (h : Pending m s)
    (hlen : s.reclen < srecBytesPerRecord) (haddr : s.address + s.reclen < 4294967296) :
    ∃ s', collect m s = some s' ∧ s'.address = s.address ∧ s'.reclen = s.reclen + 1 ∧
      Pending m s' ∧ s'.data.length = 2 * s'.reclen := by
  have hroom : 2 * s.reclen + 2 < 2 * srecBytesPerRecord + 1 := by omega
  have hhigh : (m (s.address + s.reclen)).toNat / 16 % 16 = (m (s.address + s.reclen)).toNat / 16 := by
    have := (m (s.address + s.reclen)).toNat_lt
    omega
  have hdata : s.data.take (2 * s.reclen) ++ hexPair (m (s.address + s.reclen)).toNat =
      hexText (values m s.address (s.reclen + 1)) := by
    rw [h.data, values_succ, hexText_append]
    simp [hexText]
  have hlength : (s.data.take (2 * s.reclen) ++ hexPair (m (s.address + s.reclen)).toNat).length =
      2 * (s.reclen + 1) := by
    rw [hdata, hexText_length, values_length]
  refine ⟨{ s with
    reclen := s.reclen + 1
    checksum := s.checksum + (m (s.address + s.reclen)).toNat
    data := s.data.take (2 * s.reclen) ++ hexPair (m (s.address + s.reclen)).toNat }, ?_, rfl, rfl,
    ⟨?_, ?_⟩, hlength⟩
  · rw [collect, Nat.mod_eq_of_lt haddr, if_pos hroom, hhigh]
    rfl
  · rw [List.take_of_length_le (Nat.le_of_eq hlength)]
    exact hdata
  · rw [h.checksum, values_succ, List.sum_append, List.sum_singleton]

theorem writeRecord_line {cs : CStr} (hcs : ∀ c ∈ cs, Plain c) :
    writeRecord (0x53 :: cs ++ [0x0a]) = 0x53 :: cs ++ [0x0d, 0x0a] := by
  have hplain : cs.flatMap serialPutc = cs := by
    induction cs with
    | nil => rfl
    | cons c cs ih =>
      have hc : c ≠ 0x0a := by
        rintro rfl
        exact hcs 0x0a List.mem_cons_self (by decide)
      rw [List.flatMap_cons, ih fun d hd ↦ hcs d (List.mem_cons_of_mem c hd), serialPutc, if_neg hc]
      rfl
  rw [writeRecord, List.flatMap_append, List.flatMap_cons, hplain]
  rfl

theorem dataRecord_pending {m : Mem} {s : SaveState} (h : Pending m s)
    (hdata : s.data.length = 2 * s.reclen) (hlen : s.reclen ≤ 16)
    (haddr : s.address < 4294967296) :
    dataRecord s = some (dataLine s.address (values m s.address s.reclen) ++ [0x0a]) := by
  have htext : s.data = hexText (values m s.address s.reclen) := by
    rw [← h.data, List.take_of_length_le (by omega)]
  have hsum : s.checksum + ((List.range 2).map fun i ↦ (4 + s.reclen + 1) / 256 ^ i % 256).sum +
      ((List.range 4).map fun i ↦ s.address / 256 ^ i % 256).sum =
        recordSum s.address (values m s.address s.reclen) := by
    rw [h.checksum, recordSum, values_length]
    simp [List.range_succ, addressBytes]
    omega
  have hrecord : ascii "S3" ++ numberHex 2 (4 + s.reclen + 1) ++ numberHex 8 s.address ++ s.data ++
      numberHex 2 (255 - recordSum s.address (values m s.address s.reclen) % 256) ++ ascii "\n" =
        dataLine s.address (values m s.address s.reclen) ++ [0x0a] := by
    rw [numberHex_two (by omega), numberHex_eight haddr, numberHex_two (by omega), htext, dataLine,
      values_length, show 4 + s.reclen + 1 = s.reclen + 5 by omega]
    simp [hexText, addressBytes, ascii]
  have hfits : (dataLine s.address (values m s.address s.reclen) ++ [0x0a]).length + 1 ≤
      2 * srecBytesPerRecord + 16 := by
    obtain ⟨cs, hline, -, hcs⟩ := dataLine_plain haddr (values_lt m s.address s.reclen)
      (by rw [values_length]; exact hlen)
    rw [hline, List.length_append, List.length_cons, hcs, values_length, srecBytesPerRecord]
    simp only [List.length_singleton]
    omega
  rw [dataRecord, hsum, hrecord, if_pos hfits]

theorem dump_pending {m : Mem} {count : ℕ} {s : SaveState} (h : Pending m s)
    (hdata : s.data.length = 2 * s.reclen) (hpos : 0 < s.reclen) (hlen : s.reclen ≤ 16)
    (haddr : s.address < 4294967296) (hfull : s.reclen = srecBytesPerRecord ∨ count = 0) :
    dump count s = some (dataLine s.address (values m s.address s.reclen) ++ [0x0d, 0x0a],
      { s with address := (s.address + s.reclen) % 4294967296, checksum := 0, reclen := 0 }) := by
  obtain ⟨cs, hline, hplain, -⟩ := dataLine_plain haddr (values_lt m s.address s.reclen)
    (by rw [values_length]; exact hlen)
  rw [dump, if_pos hfull, if_neg (by omega), dataRecord_pending h hdata hlen haddr, hline]
  simp only [Option.bind_eq_bind, Option.bind_some]
  rw [writeRecord_line hplain]
  rfl

theorem values_ofNat (m : Mem) (a n : ℕ) : (values m a n).map UInt8.ofNat = bytes m a n := by
  simp [values, Function.comp_def]

theorem loads_dataLine {m : Mem} {a n : ℕ} (hpos : 0 < n) (hlen : n ≤ 16)
    (haddr : a + n ≤ 4294967296) {input : Input} {rest : CStr} {st : LoadState} {P : Load → Prop}
    (hcalm : Calm input) (hinput : chars input = dataLine a (values m a n) ++ 0x0d :: 0x0a :: rest)
    (h : ∀ input', Calm input' → chars input' = rest →
      Loads 0 input' (received st a (bytes m a n)) P) :
    Loads 0 input st P := by
  have hvlen : (values m a n).length ≤ 16 := by
    rw [values_length]
    exact hlen
  obtain ⟨cs, hline, hplain, hcs⟩ := dataLine_plain (a := a) (by omega) (values_lt m a n) hvlen
  have hdecode := srecDecode_dataLine (a := a) (by omega) (values_lt m a n) hvlen
  rw [values_ofNat, values_length, hline] at hdecode
  rw [hline] at hinput
  have hbs : bytes m a n ≠ [] := by
    rw [← List.length_pos_iff, bytes_length]
    exact hpos
  have hstore := storeRecord_received st hbs (a := a) (by rw [bytes_length]; exact haddr)
  rw [bytes_length] at hstore
  refine Loads.data hplain (by omega) hdecode rfl hstore h hcalm hinput

/-- What the loop sends is taken by the receiver, record by record, and stored. -/
theorem loads_saveLoop (m : Mem) (count : ℕ) {s : SaveState} (h : Pending m s)
    (hlen : s.reclen < 16) (hcount : 0 < count)
    (haddr : s.address + (s.reclen + count) ≤ 4294967296) :
    ∃ out, saveLoop m count s = some out ∧ ∀ (input : Input) (rest : CStr) (st : LoadState)
      (P : Load → Prop), Calm input → chars input = out ++ rest →
      (∀ input', Calm input' → chars input' = rest →
        Loads 0 input' (received st s.address (bytes m s.address (s.reclen + count))) P) →
      Loads 0 input st P := by
  induction count generalizing s with
  | zero => cases hcount
  | succ count ih =>
    obtain ⟨s', hcollect, hs', hr', hpending, hdata⟩ := collect_pending h hlen (by omega)
    rw [saveLoop, hcollect, Option.bind_eq_bind, Option.bind_some]
    by_cases hfull : s'.reclen = srecBytesPerRecord ∨ count = 0
    · rw [dump_pending hpending hdata (by omega) (by omega) (by omega) hfull, Option.bind_eq_bind,
        Option.bind_some]
      by_cases hlast : count = 0
      · refine ⟨_, if_pos hlast, ?_⟩
        intro input rest st P hcalm hinput hrest
        rw [List.append_assoc] at hinput
        refine loads_dataLine (by omega) (by omega) (by omega) hcalm hinput ?_
        rw [hs', hr']
        rw [hlast, Nat.zero_add] at hrest
        exact hrest
      · -- the next record starts behind this one
        obtain ⟨out, hout, hloads⟩ := ih (s := { s' with
            address := (s'.address + s'.reclen) % 4294967296, checksum := 0, reclen := 0 })
          ⟨rfl, rfl⟩ (Nat.zero_lt_succ 15) (by omega) (by
            dsimp only
            rw [Nat.mod_eq_of_lt (by omega)]
            omega)
        refine ⟨_, (if_neg hlast).trans (by rw [hout]; rfl), ?_⟩
        intro input rest st P hcalm hinput hrest
        rw [List.append_assoc, List.append_assoc] at hinput
        refine loads_dataLine (by omega) (by omega) (by omega) hcalm hinput ?_
        intro input' hcalm' hinput'
        refine hloads input' rest _ P hcalm' hinput' ?_
        intro input'' hcalm'' hinput''
        have hsplit : received (received st s'.address (bytes m s'.address s'.reclen))
            (s'.address + s'.reclen) (bytes m (s'.address + s'.reclen) (0 + count)) =
              received st s.address (bytes m s.address (s.reclen + (count + 1))) := by
          have hne (a n : ℕ) (hn : 0 < n) : bytes m a n ≠ [] := by
            rw [← List.length_pos_iff, bytes_length]
            exact hn
          have happend := received_append st s'.address (hne s'.address s'.reclen (by omega))
            (hne (s'.address + s'.reclen) (0 + count) (by omega))
          rw [bytes_length, ← bytes_append, hs', hr'] at happend
          rw [hs', hr', happend, show s.reclen + 1 + (0 + count) = s.reclen + (count + 1) by omega]
        dsimp only
        rw [Nat.mod_eq_of_lt (by omega), hsplit]
        exact hrest input'' hcalm'' hinput''
    · rw [dump, if_neg hfull, Option.bind_eq_bind, Option.bind_some]
      rw [not_or] at hfull
      have hlt : s'.reclen < 16 := lt_of_le_of_ne (by omega) hfull.1
      obtain ⟨out, hout, hloads⟩ := ih hpending hlt (by omega) (by omega)
      refine ⟨out, (if_neg hfull.2).trans (by rw [hout]; rfl), ?_⟩
      rw [hs', hr', Nat.add_assoc, Nat.add_comm 1] at hloads
      exact hloads

/-- The receiver takes every record, stores the `n` bytes at `a`, reports their number, and changes
no other byte. At most the last newline is left. -/
def RoundTrip (m m' : Mem) (a n : ℕ) (input : Input) : Prop :=
  ∃ rest, loadSerial 0 input m' =
    some (.done 0 n (numberHex 0 n) (store m' a (bytes m a n)) rest) ∧ rest.length ≤ 1

theorem loads_start {input : Input} {rest : CStr} {s : LoadState} {P : Load → Prop}
    (h : ∀ input', Calm input' → chars input' = rest → Loads 0 input' s P) (hcalm : Calm input)
    (hinput : chars input = writeRecord srec3Start ++ rest) : Loads 0 input s P := by
  have hplain : ∀ c ∈ ascii "0030000FC", Plain c := by
    unfold Plain
    decide +kernel
  have hdecode : srecDecode (0x53 :: ascii "0030000FC") = .ok ⟨.start, 0, 0, []⟩ := by
    decide +kernel
  exact Loads.start hplain (by decide) hdecode rfl h hcalm hinput

theorem loads_stop {input : Input} {s : LoadState} {P : Load → Prop} {size : ℕ}
    (hsize : (((s.endAddr : ℤ) - s.startAddr + 1) % 4294967296).toNat = size)
    (h : ∀ rest, Behind [] rest → P (.done 0 size (numberHex 0 size) s.mem rest))
    (hcalm : Calm input) (hinput : chars input = writeRecord srec3End) : Loads 0 input s P := by
  have hplain : ∀ c ∈ ascii "70500000000FA", Plain c := by
    unfold Plain
    decide +kernel
  have hdecode : srecDecode (0x53 :: ascii "70500000000FA") = .ok ⟨.end4, 0, 0, []⟩ := by
    decide +kernel
  exact Loads.stop hplain (by decide) hdecode rfl hsize h hcalm hinput

/-- What `save_serial` sends is what `load_serial` takes, when it comes slowly enough. -/
theorem loads_of_saves (m m' : Mem) (a n : ℕ) (hn : 1 ≤ n) (hcount : n < 4294967296)
    (ha : a + n ≤ 4294967296) :
    ∃ stream, saveSerial m a n = some stream ∧
      ∀ input, chars input = stream → Calm input → RoundTrip m m' a n input := by
  obtain ⟨out, hout, hloads⟩ := loads_saveLoop m n (s := ⟨a, 0, 0, []⟩)
    ⟨rfl, rfl⟩ (Nat.zero_lt_succ 15) hn (by
      dsimp only
      omega)
  refine ⟨writeRecord srec3Start ++ out ++ writeRecord srec3End, by rw [saveSerial, hout]; rfl, ?_⟩
  intro input hinput hcalm
  have hsize : ((((received ⟨m', 4294967295, 0⟩ a (bytes m a (0 + n))).endAddr : ℤ) -
      (received ⟨m', 4294967295, 0⟩ a (bytes m a (0 + n))).startAddr + 1) % 4294967296).toNat =
        n := by
    simp only [received, bytes_length]
    omega
  have hrun : Loads 0 input ⟨m', 4294967295, 0⟩ fun r ↦ ∃ rest, rest.length ≤ 1 ∧
      r = .done 0 n (numberHex 0 n) (store m' a (bytes m a n)) rest := by
    rw [List.append_assoc] at hinput
    refine loads_start ?_ hcalm hinput
    intro input hcalm hinput
    refine hloads input _ _ _ hcalm hinput ?_
    intro input hcalm hinput
    refine loads_stop hsize ?_ hcalm hinput
    intro rest hbehind
    refine ⟨rest, ?_, by rw [Nat.zero_add]; rfl⟩
    have hlen : rest.length = (chars rest).length := (List.length_map _).symm
    obtain ⟨-, hnl | hnil⟩ := hbehind
    · rw [hlen, hnl]
      exact Nat.le_refl 1
    · rw [hlen, hnil]
      exact Nat.zero_le 1
  obtain ⟨r, hr, rest, hrest, rfl⟩ := hrun (input.length + 1) (Nat.lt_succ_self _)
  exact ⟨rest, hr, hrest⟩

/-- The records of one byte, with the character behind the first `S` waiting when `ctrlc` looks. -/
def hurried : Input :=
  ((saveSerial (fun _ ↦ 0) 0x80060000 1).getD []).zipIdx.map fun x ↦ (x.1, x.2 == 1)

/-- `ctrlc` takes the type of the first record, and the download is aborted. -/
theorem not_roundTrip_hurried :
    saveSerial (fun _ ↦ 0) 0x80060000 1 = some (chars hurried) ∧
      ¬ RoundTrip (fun _ ↦ 0) (fun _ ↦ 0xff) 0x80060000 1 hurried := by
  refine ⟨by decide +kernel, ?_⟩
  rintro ⟨rest, hload, -⟩
  have haborted : ((loadSerial 0 hurried fun _ ↦ 0xff).map fun
      | .aborted _ => true
      | .done .. => false) = some true := by
    decide +kernel
  rw [hload] at haborted
  cases haborted

theorem loads_of_saves_top :
    ∃ stream, saveSerial (fun k ↦ UInt8.ofNat k) 4294967270 26 = some stream ∧
      Calm (stream.map (·, false)) ∧
      RoundTrip (fun k ↦ UInt8.ofNat k) (fun _ ↦ 0) 4294967270 26 (stream.map (·, false)) := by
  obtain ⟨stream, hsave, hload⟩ := loads_of_saves (fun k ↦ UInt8.ofNat k) (fun _ ↦ 0) 4294967270 26
    (by decide) (by decide) (by decide)
  have hchars : chars (stream.map (·, false)) = stream := by
    simp [chars, Function.comp_def]
  have hcalm : Calm (stream.map (·, false)) := by
    intro x hx hearly
    obtain ⟨c, -, rfl⟩ := List.mem_map.mp hx
    cases hearly
  exact ⟨stream, hsave, hcalm, hload _ hchars hcalm⟩

end Transfer

end UBoot.Common.SRecordRoundTrip
