import UBoot.Common.XyzModem

namespace UBoot.Common.XyzModemFrames

open Lib.Memory Crc16 XyzModem

/-- Characters that come in time. -/
def chars (l : List UInt8) : Line := l.map some

/-- A block as it comes over the line. -/
structure Frame where
  c : UInt8
  blk : UInt8
  cblk : UInt8
  data : List UInt8
  check : List UInt8

def Frame.text (f : Frame) : List UInt8 := f.c :: f.blk :: f.cblk :: (f.data ++ f.check)

/-- The data are as long as the first character says, and the checksum as the mode asks for. -/
structure Frame.Shaped (crc : Bool) (f : Frame) : Prop where
  start : f.c = soh ∨ f.c = stx
  data : f.data.length = if f.c = soh then 128 else 1024
  check : f.check.length = if crc then 2 else 1

def checkOf (crc : Bool) (data : List UInt8) : List UInt8 :=
  if crc then [(cygCrc16 data >>> 8).toUInt8, (cygCrc16 data).toUInt8] else [(byteSum data).toUInt8]

/-- What the receiver says to it. -/
def Frame.stat (crc : Bool) (f : Frame) : Stat :=
  if f.blk ^^^ f.cblk ≠ 0xFF then .frame else if f.check = checkOf crc f.data then .ok else .cksum

/-- Characters in front of a block that the receiver skips. -/
structure Noise (g : List UInt8) : Prop where
  start : ∀ c ∈ g, c ≠ soh ∧ c ≠ stx
  can : g.count can < canCount
  eot : g.head? ≠ some eot

theorem noise_nil : Noise [] :=
  ⟨fun _ hc ↦ absurd hc List.not_mem_nil, by decide, by simp⟩

@[simp] theorem chars_append (a b : List UInt8) : chars (a ++ b) = chars a ++ chars b := List.map_append

@[simp] theorem chars_cons (c : UInt8) (l : List UInt8) : chars (c :: l) = some c :: chars l := rfl

@[simp] theorem chars_nil : chars [] = [] := rfl

@[simp] theorem chars_length (l : List UInt8) : (chars l).length = l.length := List.length_map _

section Reading

variable {s s' : Xyz} {f : Frame} {g : List UInt8} {line rest : Line}

theorem findHeader_chars {g : List UInt8} {h n : ℕ} (hstart : ∀ c ∈ g, c ≠ soh ∧ c ≠ stx)
    (hcan : n + g.count can < canCount) (heot : h = 0 → g.head? ≠ some eot) :
    findHeader (chars g ++ line) h n = findHeader line (h + g.length) (n + g.count can) := by
  induction g generalizing h n with
  | nil => rfl
  | cons c g ih =>
    obtain ⟨hsoh, hstx⟩ := hstart c List.mem_cons_self
    have hrest : ∀ c ∈ g, c ≠ soh ∧ c ≠ stx := fun c hc ↦ hstart c (List.mem_cons_of_mem _ hc)
    rw [chars_cons, List.cons_append, findHeader, if_neg (not_or.mpr ⟨hsoh, hstx⟩)]
    rw [List.count_cons] at hcan ⊢
    by_cases hc : c = can
    · subst hc
      rw [beq_self_eq_true, if_pos rfl] at hcan ⊢
      have hn : ¬ n + 1 = canCount := by omega
      rw [if_pos rfl, if_neg hn, ih hrest (by omega) (by omega), List.length_cons]
      congr 1 <;> omega
    · have hbeq : (c == can) = false := beq_false_of_ne hc
      rw [hbeq, if_neg Bool.false_ne_true] at hcan ⊢
      have hend : ¬ (c = eot ∧ h + 1 = 1) := by
        rintro ⟨rfl, hh⟩
        exact heot (by omega) rfl
      rw [if_neg hc, if_neg hend, ih hrest (by omega) (by omega), List.length_cons]
      congr 1
      omega

theorem findHeader_noise (hg : Noise g) :
    findHeader (chars g ++ line) 0 0 = findHeader line g.length (g.count can) := by
  rw [findHeader_chars hg.start (by rw [Nat.zero_add]; exact hg.can) fun _ ↦ hg.eot, Nat.zero_add,
    Nat.zero_add]

theorem flush_chars (l : List UInt8) : flush (chars l ++ none :: line) = line := by
  induction l with
  | nil => rfl
  | cons c l ih => exact ih

theorem store_nil (m : Mem) (off : ℕ) : store m off [] = m := by
  funext k
  simp [store]

theorem readData_chars (pkt : Mem) (i : ℕ) (data : List UInt8) :
    readData pkt i data.length (chars data ++ line) = (true, store pkt i data, line) := by
  induction data generalizing pkt i with
  | nil =>
    rw [store_nil]
    rfl
  | cons c data ih =>
    have hstore := store_store pkt i [c] data
    rw [List.length_cons, chars_cons, List.cons_append, readData, ih]
    exact congrArg (fun m ↦ (true, m, line)) hstore

theorem readData_cut (pkt : Mem) (i : ℕ) {n : ℕ} {l : List UInt8} (h : l.length < n) :
    ∃ pkt', readData pkt i n (chars l ++ none :: line) = (false, pkt', line) := by
  induction l generalizing pkt i n with
  | nil =>
    obtain ⟨n, rfl⟩ := Nat.exists_eq_add_one_of_ne_zero (Nat.ne_of_gt h)
    exact ⟨pkt, rfl⟩
  | cons c l ih =>
    obtain ⟨n, rfl⟩ := Nat.exists_eq_add_one_of_ne_zero (Nat.ne_of_gt (Nat.lt_of_le_of_lt (Nat.zero_le _) h))
    exact ih _ _ (Nat.lt_of_succ_lt_succ h)

theorem readData_true {pkt pkt' : Mem} {i n : ℕ} (h : readData pkt i n line = (true, pkt', rest)) :
    ∃ data, data.length = n ∧ line = chars data ++ rest := by
  induction n generalizing pkt i line with
  | zero =>
    obtain ⟨-, -, rfl⟩ := Prod.mk.inj h |>.imp_right Prod.mk.inj
    exact ⟨[], rfl, rfl⟩
  | succ n ih =>
    cases line with
    | nil => simp [readData] at h
    | cons e line =>
      cases e with
      | none => simp [readData] at h
      | some c =>
        obtain ⟨data, rfl, rfl⟩ := ih h
        exact ⟨c :: data, rfl, rfl⟩

theorem crc_bytes (w : UInt16) (a b : UInt8) : w = a.toUInt16 <<< 8 ||| b.toUInt16 ↔
    [a, b] = [(w >>> 8).toUInt8, w.toUInt8] := by
  have ha := a.toNat_lt
  have hb := b.toNat_lt
  have hw := w.toNat_lt
  have hor : (a.toUInt16 <<< 8 ||| b.toUInt16).toNat = a.toNat * 256 + b.toNat := by
    rw [UInt16.toNat_or, UInt16.toNat_shiftLeft, UInt8.toNat_toUInt16, UInt8.toNat_toUInt16]
    have hshift : a.toNat <<< ((8 : UInt16).toNat % 16) % 2 ^ 16 = 2 ^ 8 * a.toNat := by
      rw [Nat.shiftLeft_eq]
      simp only [UInt16.reduceToNat, Nat.reduceMod]
      omega
    rw [hshift, ← Nat.two_pow_add_eq_or_of_lt hb]
    omega
  have hhigh : ((w >>> 8).toUInt8).toNat = w.toNat / 256 := by
    rw [UInt16.toNat_toUInt8, UInt16.toNat_shiftRight, Nat.shiftRight_eq_div_pow]
    simp only [UInt16.reduceToNat, Nat.reduceMod]
    omega
  rw [List.cons.injEq, List.cons.injEq, ← UInt16.toNat_inj, ← UInt8.toNat_inj, ← UInt8.toNat_inj, hor,
    hhigh, UInt16.toNat_toUInt8]
  simp only [and_true]
  omega

theorem sum_byte (w : UInt16) (a : UInt8) : a.toUInt16 = w &&& 0xFF ↔ [a] = [w.toUInt8] := by
  have hm : w.toNat &&& 255 = w.toNat % 256 := Nat.and_two_pow_sub_one_eq_mod w.toNat 8
  rw [List.cons.injEq, ← UInt16.toNat_inj, ← UInt8.toNat_inj, UInt8.toNat_toUInt16, UInt16.toNat_and,
    UInt16.toNat_toUInt8]
  simp only [UInt16.reduceToNat, hm, and_true]

/-- The block is in `pkt`. -/
structure Arrived (f : Frame) (s : Xyz) : Prop where
  pkt : bytes s.pkt 0 f.data.length = f.data
  bufp : s.bufp = 0
  len : s.len = f.data.length
  blk : s.blk = f.blk

/-- What is left of the line behind a block: a bad header has it flushed. -/
def lineAfter : Stat → Line → Line
  | .frame, line => flush line
  | _, line => line

theorem validate_frame (h : Arrived f s) (hcblk : s.cblk = f.cblk)
    (hcheck : f.check = if s.crcMode then [s.crc1, s.crc2] else [s.crc1]) :
    ∃ s', validate s = (f.stat s.crcMode, s') ∧ Arrived f s' ∧
      s'.line = lineAfter (f.stat s.crcMode) s.line := by
  have hdata : bytes s.pkt 0 s.len.toNat = f.data := by
    rw [h.len, Int.toNat_natCast]
    exact h.pkt
  rw [validate, Frame.stat, hdata, h.blk, hcblk]
  by_cases hblk : f.blk ^^^ f.cblk ≠ 0xFF
  · rw [if_pos hblk, if_pos hblk]
    exact ⟨_, rfl, ⟨h.pkt, h.bufp, h.len, rfl⟩, rfl⟩
  rw [if_neg hblk, if_neg hblk]
  cases hcrc : s.crcMode with
  | true =>
    rw [hcrc, if_pos rfl] at hcheck
    rw [if_pos rfl, checkOf, if_pos rfl, hcheck]
    by_cases hok : [s.crc1, s.crc2] = [(cygCrc16 f.data >>> 8).toUInt8, (cygCrc16 f.data).toUInt8]
    · rw [if_neg (not_not.mpr ((crc_bytes _ _ _).mpr hok)), if_pos hok]
      exact ⟨s, rfl, h, rfl⟩
    · rw [if_pos (mt (crc_bytes _ _ _).mp hok), if_neg hok]
      exact ⟨s, rfl, h, rfl⟩
  | false =>
    rw [hcrc, if_neg Bool.false_ne_true] at hcheck
    rw [if_neg Bool.false_ne_true, checkOf, if_neg Bool.false_ne_true, hcheck]
    by_cases hok : [s.crc1] = [(byteSum f.data).toUInt8]
    · rw [if_neg (not_not.mpr ((sum_byte _ _).mpr hok)), if_pos hok]
      exact ⟨s, rfl, h, rfl⟩
    · rw [if_pos (mt (sum_byte _ _).mp hok), if_neg hok]
      exact ⟨s, rfl, h, rfl⟩

theorem readCheck_frame (h : Arrived f s) (hcblk : s.cblk = f.cblk) (hf : f.Shaped s.crcMode)
    (hline : s.line = chars f.check ++ line) :
    ∃ s', readCheck s = (f.stat s.crcMode, s') ∧ Arrived f s' ∧
      s'.line = lineAfter (f.stat s.crcMode) line := by
  have hlength := hf.check
  rw [readCheck, hline]
  cases hcrc : s.crcMode with
  | true =>
    rw [hcrc, if_pos rfl] at hlength
    obtain ⟨a, b, hab⟩ := List.length_eq_two.mp hlength
    rw [hab]
    have hres := validate_frame (f := f)
      (s := { s with crc1 := a, crc2 := b, line := line }) ⟨h.pkt, h.bufp, h.len, h.blk⟩ hcblk
      (by simp only [hcrc, if_true, hab])
    simp only [hcrc] at hres
    simpa only [chars_cons, chars_nil, List.cons_append, List.nil_append, getcTimeout, hcrc, if_true] using hres
  | false =>
    rw [hcrc, if_neg Bool.false_ne_true] at hlength
    obtain ⟨a, ha⟩ := List.length_eq_one_iff.mp hlength
    rw [ha]
    have hres := validate_frame (f := f)
      (s := { s with crc1 := a, line := line }) ⟨h.pkt, h.bufp, h.len, h.blk⟩ hcblk
      (by simp only [hcrc, Bool.false_eq_true, if_false, ha])
    simp only [hcrc] at hres
    simpa only [chars_cons, chars_nil, List.cons_append, List.nil_append, getcTimeout, hcrc,
      Bool.false_eq_true, if_false] using hres

theorem readBlock_frame (hf : f.Shaped s.crcMode)
    (hline : s.line = chars (f.blk :: f.cblk :: (f.data ++ f.check)) ++ line) :
    ∃ s', readBlock f.c s = (f.stat s.crcMode, s') ∧ Arrived f s' ∧
      s'.line = lineAfter (f.stat s.crcMode) line := by
  have hdata : readData s.pkt 0 (if f.c = soh then 128 else 1024)
      (chars f.data ++ (chars f.check ++ line)) = (true, store s.pkt 0 f.data, chars f.check ++ line) := by
    rw [← hf.data]
    exact readData_chars _ _ _
  simp only [readBlock, hline, chars_cons, chars_append, List.cons_append, List.append_assoc, getcTimeout,
    hdata]
  refine readCheck_frame (f := f) ⟨?_, rfl, ?_, rfl⟩ rfl hf rfl
  · exact bytes_store s.pkt 0 f.data
  · rw [hf.data]

theorem sendAck_line (s : Xyz) : (sendAck s).line = s.line := by
  rw [sendAck]
  split_ifs <;> rfl

/-- What the receiver makes of a block. -/
theorem getHdr_frame (hg : Noise g) (hf : f.Shaped s.crcMode)
    (hline : s.line = chars (g ++ f.text) ++ line) :
    ∃ s', getHdr s = (f.stat s.crcMode, s') ∧ Arrived f s' ∧
      s'.line = lineAfter (f.stat s.crcMode) line := by
  have hack := sendAck_later s
  have hline' : (sendAck s).line = s.line := sendAck_line s
  have hfind : findHeader (sendAck s).line 0 0 =
      (.header f.c, chars (f.blk :: f.cblk :: (f.data ++ f.check)) ++ line) := by
    rw [hline', hline, chars_append, List.append_assoc, findHeader_noise hg, Frame.text, chars_cons,
      List.cons_append, findHeader, if_pos hf.start]
  rw [← hack.crcMode] at hf ⊢
  rw [getHdr, ← sendAck, hfind]
  exact readBlock_frame (s := { sendAck s with line := _ }) hf rfl

theorem readCheck_ok (h : readCheck s = (.ok, s')) :
    ∃ check rest, check.length = (if s.crcMode then 2 else 1) ∧ s.line = chars check ++ rest := by
  rw [readCheck] at h
  generalize s.line = l at h ⊢
  rcases l with _ | ⟨_ | a, l⟩
  · cases h
  · cases h
  cases hcrc : s.crcMode with
  | false => exact ⟨[a], l, rfl, rfl⟩
  | true =>
    simp only [getcTimeout, hcrc, if_true] at h
    rcases l with _ | ⟨_ | b, l⟩
    · cases h
    · cases h
    · exact ⟨[a, b], l, rfl, rfl⟩

theorem readBlock_ok {c : UInt8} (hc : c = soh ∨ c = stx) (h : readBlock c s = (.ok, s')) :
    ∃ (f : Frame) (rest : Line), f.c = c ∧ f.Shaped s.crcMode ∧
      s.line = chars (f.blk :: f.cblk :: (f.data ++ f.check)) ++ rest := by
  rw [readBlock] at h
  generalize s.line = l at h ⊢
  rcases l with _ | ⟨_ | blk, l⟩
  · cases h
  · cases h
  rcases l with _ | ⟨_ | cblk, l⟩
  · cases h
  · cases h
  simp only [getcTimeout] at h
  generalize hdata : readData s.pkt 0 (if c = soh then 128 else 1024) l = r at h
  obtain ⟨_ | _, pkt, l'⟩ := r
  · cases h
  obtain ⟨data, hlength, rfl⟩ := readData_true hdata
  obtain ⟨check, rest, hcheck, hrest⟩ := readCheck_ok h
  have hrest : l' = chars check ++ rest := hrest
  refine ⟨⟨c, blk, cblk, data, check⟩, rest, rfl, ⟨hc, hlength, hcheck⟩, ?_⟩
  rw [hrest, chars_cons, chars_cons, chars_append]
  simp only [List.cons_append, List.append_assoc]

/-- A block that the receiver takes has come over the line as it is. -/
theorem getHdr_ok (h : getHdr s = (.ok, s')) :
    ∃ (pre : Line) (f : Frame), f.Shaped s.crcMode ∧ f.stat s.crcMode = .ok ∧
      s.line = pre ++ (chars f.text ++ s'.line) ∧ Arrived f s' := by
  have hmode := (sendAck_later s).crcMode
  rw [getHdr, ← sendAck] at h
  generalize hfind : findHeader (sendAck s).line 0 0 = r at h
  obtain ⟨c | _ | _ | _, line⟩ := r
  · obtain ⟨pre, hline, hc⟩ := findHeader_header hfind
    obtain ⟨f, rest, rfl, hf, hrest⟩ := readBlock_ok hc h
    have hrest : line = chars (f.blk :: f.cblk :: (f.data ++ f.check)) ++ rest := hrest
    obtain ⟨s'', hres, harrived, hafter⟩ := readBlock_frame hf hrest
    obtain ⟨hok, rfl⟩ := Prod.mk.inj (h.symm.trans hres)
    have hok : f.stat s.crcMode = .ok := (hmode ▸ hok).symm
    have hafter : s'.line = rest := by
      rw [hafter]
      simp only [hmode, hok, lineAfter]
    refine ⟨pre, f, hmode ▸ hf, hok, ?_, harrived⟩
    rw [← sendAck_line s, hline, hrest, hafter]
    rfl
  · cases h
  · cases h
  · cases h

theorem getHdr_silence (hg : Noise g) (hline : s.line = chars g ++ none :: line) :
    ∃ s', getHdr s = (.timeout, s') ∧ s'.line = flush line := by
  have hfind : findHeader (sendAck s).line 0 0 = (.timeout, flush line) := by
    rw [sendAck_line, hline, findHeader_noise hg]
    rfl
  rw [getHdr, ← sendAck, hfind]
  exact ⟨_, rfl, rfl⟩

/-- A block that stops in the middle. -/
theorem readBlock_cut {l : List UInt8} (hf : f.Shaped s.crcMode)
    (hl : l <+: f.blk :: f.cblk :: (f.data ++ f.check)) (hlength : l.length < f.text.length - 1)
    (hline : s.line = chars l ++ none :: line) :
    ∃ s', readBlock f.c s = (.timeout, s') ∧ s'.line = line := by
  rcases l with _ | ⟨blk, _ | ⟨cblk, l⟩⟩
  · rw [readBlock, hline]
    exact ⟨_, rfl, rfl⟩
  · rw [readBlock, hline]
    exact ⟨_, rfl, rfl⟩
  simp only [readBlock, hline, chars_cons, List.cons_append, getcTimeout]
  have hlength : l.length < f.data.length + f.check.length := by
    simp only [Frame.text, List.length_cons, List.length_append] at hlength
    omega
  have hl : l <+: f.data ++ f.check := by
    rw [List.cons_prefix_cons, List.cons_prefix_cons] at hl
    exact hl.2.2
  rcases Nat.lt_or_ge l.length f.data.length with hshort | hlong
  · obtain ⟨pkt, hdata⟩ : ∃ pkt, readData s.pkt 0 (if f.c = soh then 128 else 1024)
        (chars l ++ none :: line) = (false, pkt, line) := readData_cut s.pkt 0 (hf.data ▸ hshort)
    rw [hdata]
    exact ⟨_, rfl, rfl⟩
  · obtain ⟨l', rfl⟩ : ∃ l', l = f.data ++ l' := by
      obtain ⟨l', hl'⟩ := List.prefix_of_prefix_length_le (List.prefix_append _ _) hl hlong
      exact ⟨l', hl'.symm⟩
    have hdata : readData s.pkt 0 (if f.c = soh then 128 else 1024)
        (chars (f.data ++ l') ++ none :: line) =
        (true, store s.pkt 0 f.data, chars l' ++ none :: line) := by
      rw [← hf.data, chars_append, List.append_assoc]
      exact readData_chars _ _ _
    rw [hdata]
    have hcheck := hf.check
    simp only [readCheck]
    cases hcrc : s.crcMode with
    | false =>
      rw [hcrc, if_neg Bool.false_ne_true] at hcheck
      obtain rfl : l' = [] := List.length_eq_zero_iff.mp (by simp only [List.length_append] at hlength; omega)
      exact ⟨_, rfl, rfl⟩
    | true =>
      rw [hcrc, if_pos rfl] at hcheck
      rcases l' with _ | ⟨a, _ | ⟨b, l'⟩⟩
      · exact ⟨_, rfl, rfl⟩
      · simp only [chars_cons, chars_nil, List.cons_append, List.nil_append, getcTimeout, if_true]
        exact ⟨_, rfl, rfl⟩
      · simp only [List.length_append, List.length_cons] at hlength
        omega

theorem getHdr_cut {l : List UInt8} (hg : Noise g) (hf : f.Shaped s.crcMode) (hl : l <+: f.text)
    (hempty : l ≠ []) (hlength : l.length < f.text.length)
    (hline : s.line = chars (g ++ l) ++ none :: line) :
    ∃ s', getHdr s = (.timeout, s') ∧ s'.line = line := by
  obtain ⟨c, l, rfl⟩ := List.exists_cons_of_ne_nil hempty
  obtain ⟨rfl, hl'⟩ := List.cons_prefix_cons.mp hl
  have hfind : findHeader (sendAck s).line 0 0 = (.header f.c, chars l ++ none :: line) := by
    rw [sendAck_line, hline, chars_append, List.append_assoc, findHeader_noise hg, chars_cons,
      List.cons_append, findHeader, if_pos hf.start]
  rw [getHdr, ← sendAck, hfind]
  rw [← (sendAck_later s).crcMode] at hf
  refine readBlock_cut (s := { sendAck s with line := _ }) hf hl' ?_ rfl
  rw [List.length_cons] at hlength
  omega

theorem getHdr_eof (hline : s.line = some eot :: line) :
    ∃ s', getHdr s = (.eof, s') ∧ s'.line = line := by
  have hfind : findHeader (sendAck s).line 0 0 = (.eof, line) := by
    rw [sendAck_line, hline]
    rfl
  rw [getHdr, ← sendAck, hfind]
  exact ⟨_, rfl, rfl⟩

end Reading

/-- A piece of the line from which the receiver gets no block that it waits for: nothing at all, a
block that is cut off or damaged, or a good one with a number for which `other` holds. -/
inductive Failed (crc : Bool) (other : UInt8 → Prop) : Stat → Line → Prop
  | silence {g l : List UInt8} (hg : Noise g) :
    Failed crc other .timeout (chars g ++ none :: (chars l ++ [none]))
  | cut {g l : List UInt8} {f : Frame} (hg : Noise g) (hf : f.Shaped crc) (hl : l <+: f.text) (hempty : l ≠ [])
    (hlength : l.length < f.text.length) : Failed crc other .timeout (chars (g ++ l) ++ [none])
  | header {g l : List UInt8} {f : Frame} (hg : Noise g) (hf : f.Shaped crc) (hstat : f.stat crc = .frame) :
    Failed crc other .frame (chars (g ++ f.text) ++ (chars l ++ [none]))
  | damaged {g : List UInt8} {f : Frame} (hg : Noise g) (hf : f.Shaped crc) (hstat : f.stat crc = .cksum) :
    Failed crc other .cksum (chars (g ++ f.text))
  | other {g : List UInt8} {f : Frame} (hg : Noise g) (hf : f.Shaped crc) (hstat : f.stat crc = .ok)
    (hother : other f.blk) : Failed crc other .ok (chars (g ++ f.text))

theorem getHdr_failed {other : UInt8 → Prop} {s : Xyz} {stat : Stat} {piece line : Line}
    (h : Failed s.crcMode other stat piece) (hline : s.line = piece ++ line) :
    ∃ s', getHdr s = (stat, s') ∧ s'.line = line ∧ (stat = .ok → other s'.blk) := by
  cases h with
  | silence hg =>
    rw [List.append_assoc, List.cons_append, List.append_assoc] at hline
    obtain ⟨s', hget, hafter⟩ := getHdr_silence hg hline
    refine ⟨s', hget, ?_, fun hok ↦ by cases hok⟩
    rw [hafter]
    exact flush_chars _
  | cut hg hf hl hempty hlength =>
    rw [List.append_assoc] at hline
    obtain ⟨s', hget, hafter⟩ := getHdr_cut hg hf hl hempty hlength hline
    exact ⟨s', hget, hafter, fun hok ↦ by cases hok⟩
  | header hg hf hstat =>
    rw [List.append_assoc, List.append_assoc] at hline
    obtain ⟨s', hget, -, hafter⟩ := getHdr_frame hg hf hline
    rw [hstat] at hget hafter
    refine ⟨s', hget, ?_, fun hok ↦ by cases hok⟩
    rw [hafter]
    exact flush_chars _
  | damaged hg hf hstat =>
    obtain ⟨s', hget, -, hafter⟩ := getHdr_frame hg hf hline
    rw [hstat] at hget hafter
    exact ⟨s', hget, hafter, fun hok ↦ by cases hok⟩
  | other hg hf hstat hother =>
    obtain ⟨s', hget, harrived, hafter⟩ := getHdr_frame hg hf hline
    rw [hstat] at hget hafter
    exact ⟨s', hget, hafter, fun _ ↦ harrived.blk ▸ hother⟩

end UBoot.Common.XyzModemFrames
