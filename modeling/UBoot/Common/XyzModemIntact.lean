import Mathlib
import UBoot.Common.XyzModemTransfer

namespace UBoot.Common.XyzModemIntact

open Lib.Memory XyzModem XyzModemFrames

/-- What may be delivered from a line, with the number of the block that is expected: parts of blocks
that stand on the line with their numbers and checksums, in this order. When the retries are used up by
copies of the block before, its data are delivered again. -/
inductive Delivers (crc : Bool) : UInt8 → Line → List UInt8 → Prop
  | nil (next : UInt8) (line : Line) : Delivers crc next line []
  | block {pre line : Line} {f : Frame} {data out : List UInt8} (hf : f.Shaped crc) (hstat : f.stat crc = .ok)
    (hdata : data <+: f.data) (hrest : Delivers crc (f.blk + 1) line out) :
    Delivers crc f.blk (pre ++ (chars f.text ++ line)) (data ++ out)
  | again {pre line : Line} {f : Frame} {data out : List UInt8} (hf : f.Shaped crc) (hstat : f.stat crc = .ok)
    (hdata : data <+: f.data) (hrest : Delivers crc (f.blk + 1) line out) :
    Delivers crc (f.blk + 1) (pre ++ (chars f.text ++ line)) (data ++ out)

theorem Delivers.mono {crc : Bool} {next : UInt8} {line line' : Line} {out : List UInt8}
    (h : Delivers crc next line out) (hline : line <:+ line') : Delivers crc next line' out := by
  obtain ⟨front, rfl⟩ := hline
  cases h with
  | nil => exact .nil _ _
  | block hf hstat hdata hrest =>
    rw [← List.append_assoc]
    exact .block hf hstat hdata hrest
  | again hf hstat hdata hrest =>
    rw [← List.append_assoc]
    exact .again hf hstat hdata hrest

theorem text_length (f : Frame) : f.data.length < f.text.length := by
  simp only [Frame.text, List.length_cons, List.length_append]
  omega

section Blocks

variable {s s' : Xyz}

/-- The block that is expected has come. -/
def Took (s s' : Xyz) : Prop :=
  ∃ pre f s₁, f.Shaped s.crcMode ∧ f.stat s.crcMode = .ok ∧ f.blk = s.nextBlk ∧
    s.line = pre ++ (chars f.text ++ s₁.line) ∧ Arrived f s₁ ∧ Later s s₁ ∧ s' = takeBlock s₁

/-- The last block that has come is the one before. -/
def Repeated (s s' : Xyz) : Prop :=
  ∃ pre f, f.Shaped s.crcMode ∧ f.stat s.crcMode = .ok ∧ f.blk = s.nextBlk - 1 ∧
    s.line = pre ++ (chars f.text ++ s'.line) ∧ Arrived f s' ∧ Later s s'

theorem Took.of_later {s₁ : Xyz} (h : Took s₁ s') (hs : Later s s₁) : Took s s' := by
  obtain ⟨pre, f, s₂, hf, hstat, hblk, hline, harrived, hlater, rfl⟩ := h
  obtain ⟨front, hfront⟩ := hs.line
  rw [hs.crcMode] at hf hstat
  rw [hs.nextBlk] at hblk
  refine ⟨front ++ pre, f, s₂, hf, hstat, hblk, ?_, harrived, hs.trans hlater, rfl⟩
  rw [← hfront, hline, List.append_assoc]

theorem Repeated.of_later {s₁ : Xyz} (h : Repeated s₁ s') (hs : Later s s₁) : Repeated s s' := by
  obtain ⟨pre, f, hf, hstat, hblk, hline, harrived, hlater⟩ := h
  obtain ⟨front, hfront⟩ := hs.line
  rw [hs.crcMode] at hf hstat
  rw [hs.nextBlk] at hblk
  refine ⟨front ++ pre, f, hf, hstat, hblk, ?_, harrived, hs.trans hlater⟩
  rw [← hfront, hline, List.append_assoc]

theorem blockLoop_ok {n : ℕ} {stat : Stat} (h : blockLoop n stat s = (.ok, s')) (heof : s'.atEof = false) :
    Took s s' ∨ Repeated s s' ∨ stat = .ok ∧ s' = s := by
  induction n generalizing stat s with
  | zero =>
    obtain ⟨rfl, rfl⟩ := Prod.mk.inj h
    exact Or.inr (Or.inr ⟨rfl, rfl⟩)
  | succ n ih =>
    have hlater := getHdr_later s
    rw [blockLoop] at h
    generalize hget : getHdr s = r at h hlater
    obtain ⟨stat', s₁⟩ := r
    have hlater : Later s s₁ := hlater
    have hnext {stat'' : Stat} {s₂ : Xyz} (hs : Later s s₂) (hstat : stat'' ≠ .ok)
        (hloop : blockLoop n stat'' s₂ = (.ok, s')) : Took s s' ∨ Repeated s s' ∨ stat = .ok ∧ s' = s := by
      rcases ih hloop with htook | hrepeated | ⟨hok, -⟩
      · exact Or.inl (htook.of_later hs)
      · exact Or.inr (Or.inl (hrepeated.of_later hs))
      · exact absurd hok hstat
    cases stat' with
    | ok =>
      obtain ⟨pre, f, hf, hstat, hline, harrived⟩ := getHdr_ok hget
      dsimp only at h
      split_ifs at h with hblk hprev
      · obtain ⟨-, rfl⟩ := Prod.mk.inj h
        exact Or.inl ⟨pre, f, s₁, hf, hstat, harrived.blk.symm.trans (hblk.trans hlater.nextBlk), hline, harrived,
          hlater, rfl⟩
      · have hs : Later s (s₁.putc ack) := hlater.trans (Later.putc _ _)
        rcases ih h with htook | hrepeated | ⟨-, rfl⟩
        · exact Or.inl (htook.of_later hs)
        · exact Or.inr (Or.inl (hrepeated.of_later hs))
        · refine Or.inr (Or.inl ⟨pre, f, hf, hstat, ?_, hline, ⟨harrived.pkt, harrived.bufp, harrived.len,
            harrived.blk⟩, hs⟩)
          rw [← harrived.blk, hprev, hlater.nextBlk]
      · exact hnext (hlater.trans (Later.putNak _)) (by decide) h
    | cancel => cases h
    | eof =>
      exfalso
      have hend : (endOfFile s₁).2.atEof = true := by
        rw [endOfFile]
        split <;> rfl
      have h : endOfFile s₁ = (.ok, s') := h
      rw [h] at hend
      exact Bool.false_ne_true (heof.symm.trans hend)
    | _ => exact hnext (hlater.trans (Later.putNak _)) (by decide) h

/-- The length that has been counted is not much more than that of the file. -/
def Counted (s : Xyz) : Prop := s.readLength.toNat ≤ s.fileLength.toNat + 1024

theorem stripLoop_le (pkt : Mem) (bufp n : ℕ) : stripLoop pkt bufp n ≤ n := by
  induction n with
  | zero => exact Nat.le_refl 0
  | succ n ih =>
    rw [stripLoop]
    split_ifs
    · exact Nat.le_succ_of_le ih
    · exact Nat.le_refl _

theorem cutLength_le {n : ℕ} (hlen : s.len = n) (hn : n ≤ 1024) (hcount : Counted s)
    (hpos : 0 ≤ (cutLength s).len) : (cutLength s).len ≤ n ∧ Counted (cutLength s) := by
  have hlenNat : (UInt32.ofInt s.len).toNat = n := by
    rw [hlen, UInt32.ofInt, UInt32.toNat_ofNat']
    omega
  have hread := s.readLength.toNat_lt
  have hfile := s.fileLength.toNat_lt
  have hsum := UInt32.toNat_add s.readLength (UInt32.ofInt s.len)
  rw [hlenNat] at hsum
  unfold Counted at hcount ⊢
  rw [cutLength] at hpos ⊢
  generalize s.readLength + UInt32.ofInt s.len = readLength at hsum hpos ⊢
  by_cases hcut : s.fileLength < readLength
  · rw [if_pos hcut] at hpos ⊢
    have hdiff := UInt32.toNat_sub_of_le readLength s.fileLength (UInt32.le_of_lt hcut)
    rw [UInt32.lt_iff_toNat_lt] at hcut
    dsimp only at hpos ⊢
    rw [hdiff, hlen] at hpos ⊢
    have hexact : ((n : ℤ) - (readLength.toNat - s.fileLength.toNat : ℕ)).bmod (2 ^ 32) =
        n - (readLength.toNat - s.fileLength.toNat : ℕ) := Int.bmod_eq_of_le (by omega) (by omega)
    rw [hexact] at hpos ⊢
    omega
  · rw [if_neg hcut]
    rw [UInt32.lt_iff_toNat_lt] at hcut
    dsimp only
    omega

theorem takeBlock_le {n : ℕ} (hlen : s.len = n) (hn : n ≤ 1024) (hcount : Counted s)
    (hpos : 0 ≤ (takeBlock s).len) : (takeBlock s).len ≤ n ∧ Counted (takeBlock s) := by
  have hstrip : ∃ k ≤ n, stripPadding { s with txAck := true, nextBlk := s.nextBlk + 1 } =
      { s with txAck := true, nextBlk := s.nextBlk + 1, len := (k : ℕ) } := by
    rw [stripPadding]
    split_ifs
    · refine ⟨_, ?_, rfl⟩
      simp only [hlen, Int.toNat_natCast]
      exact stripLoop_le _ _ _
    · exact ⟨n, Nat.le_refl n, by rw [← hlen]⟩
  obtain ⟨k, hk, hstrip⟩ := hstrip
  rw [takeBlock] at hpos ⊢
  dsimp only at hpos ⊢
  split_ifs at hpos ⊢ with hplain hcut hcut
  · rw [hstrip] at hpos ⊢
    have hle := cutLength_le (s := { s with txAck := true, nextBlk := s.nextBlk + 1, len := (k : ℕ) }) rfl
      (by omega) hcount hpos
    exact ⟨by omega, hle.2⟩
  · rw [hstrip]
    exact ⟨by simpa using hk, hcount⟩
  · exact cutLength_le (s := { s with txAck := true, nextBlk := s.nextBlk + 1 }) hlen hn hcount hpos
  · exact ⟨hlen.le, hcount⟩

@[simp] theorem takeBlock_pkt (s : Xyz) : (takeBlock s).pkt = s.pkt := by
  simp only [takeBlock, stripPadding, cutLength]
  split_ifs <;> rfl

@[simp] theorem takeBlock_bufp (s : Xyz) : (takeBlock s).bufp = s.bufp := by
  simp only [takeBlock, stripPadding, cutLength]
  split_ifs <;> rfl

@[simp] theorem takeBlock_nextBlk (s : Xyz) : (takeBlock s).nextBlk = s.nextBlk + 1 := by
  simp only [takeBlock, stripPadding, cutLength]
  split_ifs <;> rfl

@[simp] theorem takeBlock_crcMode (s : Xyz) : (takeBlock s).crcMode = s.crcMode := by
  simp only [takeBlock, stripPadding, cutLength]
  split_ifs <;> rfl

/-- The file has not ended, and no error has been returned. -/
def Live (s : Xyz) : Prop := s.atEof = false ∧ 0 ≤ s.len

instance (s : Xyz) : Decidable (Live s) := inferInstanceAs (Decidable (_ ∧ _))

/-- What is left of the block, and of the line. -/
def budget (s : Xyz) : ℕ := if Live s then s.len.toNat + s.line.length else 0

/-- What the receiver may still deliver. -/
def Yields (s : Xyz) (out : List UInt8) : Prop :=
  if Live s then
    ∃ rest, out = bytes s.pkt s.bufp s.len.toNat ++ rest ∧ Delivers s.crcMode s.nextBlk s.line rest
  else out = []

theorem frame_length {f : Frame} {crc : Bool} (hf : f.Shaped crc) : f.data.length ≤ 1024 := by
  rw [hf.data]
  split_ifs <;> omega

theorem bytes_front {f : Frame} (h : Arrived f s) {k : ℕ} (hk : k ≤ f.data.length) :
    bytes s.pkt 0 k <+: f.data := by
  obtain ⟨d, hd⟩ := Nat.exists_eq_add_of_le hk
  have hpkt := h.pkt
  conv at hpkt => lhs; rw [hd, bytes_append]
  exact ⟨_, hpkt⟩

theorem yields_of_delivers (hs : s.atEof = false) (hlen : s.len = 0) {out : List UInt8}
    (h : Delivers s.crcMode s.nextBlk s.line out) : Yields s out := by
  have hempty : bytes s.pkt s.bufp s.len.toNat = [] := by
    rw [hlen]
    rfl
  rw [Yields, if_pos ⟨hs, hlen.ge⟩, hempty]
  exact ⟨out, rfl, h⟩

theorem fill_yields (hcount : Counted s) (hok : (fillBlock s).1 = .ok) (hs : s.atEof = false)
    (hlive : Live (fillBlock s).2) :
    Counted (fillBlock s).2 ∧ budget (fillBlock s).2 ≤ budget s ∧
      ∀ out, Yields (fillBlock s).2 out → Yields s out := by
  by_cases hlen : s.len = 0
  · have hbudget : budget s = s.line.length := by
      rw [budget, if_pos ⟨hs, hlen.ge⟩, hlen]
      exact Nat.zero_add _
    rw [fillBlock, if_pos hlen] at hok hlive ⊢
    generalize hloop : blockLoop maxRetries .cancel s = r at hok hlive ⊢
    obtain ⟨stat, s'⟩ := r
    obtain rfl : stat = .ok := hok
    have hcases := blockLoop_ok hloop hlive.1
    dsimp only at hlive ⊢
    rw [hbudget, budget, if_pos hlive]
    have hout (out : List UInt8) (h : Yields s' out) :
        ∃ rest, out = bytes s'.pkt s'.bufp s'.len.toNat ++ rest ∧ Delivers s'.crcMode s'.nextBlk s'.line rest := by
      rwa [Yields, if_pos hlive] at h
    rcases hcases with ⟨pre, f, s₁, hf, hstat, hblk, hline, harrived, hlater, rfl⟩ |
        ⟨pre, f, hf, hstat, hblk, hline, harrived, hlater⟩ | ⟨hcancel, -⟩
    · have hcount₁ : Counted s₁ := by
        rw [Counted, hlater.readLength, hlater.fileLength]
        exact hcount
      obtain ⟨hle, hcounted⟩ := takeBlock_le harrived.len (frame_length hf) hcount₁ hlive.2
      have hlength := congrArg List.length hline
      have htext := text_length f
      simp only [List.length_append, chars_length] at hlength
      refine ⟨hcounted, ?_, fun out h ↦ yields_of_delivers hs hlen ?_⟩
      · rw [takeBlock_line]
        omega
      · obtain ⟨rest, rfl, hrest⟩ := hout out h
        rw [takeBlock_pkt, takeBlock_bufp, harrived.bufp, hline, ← hblk]
        rw [takeBlock_crcMode, takeBlock_nextBlk, takeBlock_line, hlater.crcMode, hlater.nextBlk, ← hblk] at hrest
        exact .block hf hstat (bytes_front harrived (by omega)) hrest
    · have hlength := congrArg List.length hline
      have htext := text_length f
      have hdata := harrived.len
      simp only [List.length_append, chars_length] at hlength
      have hnext : s.nextBlk = f.blk + 1 := by
        rw [hblk, UInt8.sub_add_cancel]
      refine ⟨?_, by omega, fun out h ↦ yields_of_delivers hs hlen ?_⟩
      · rw [Counted, hlater.readLength, hlater.fileLength]
        exact hcount
      · obtain ⟨rest, rfl, hrest⟩ := hout out h
        rw [harrived.bufp, hline, hnext]
        rw [hlater.crcMode, hlater.nextBlk, hnext] at hrest
        exact .again hf hstat (bytes_front harrived (by omega)) hrest
    · cases hcancel
  · rw [fillBlock, if_neg hlen]
    exact ⟨hcount, Nat.le_refl _, fun _ h ↦ h⟩

theorem advance_yields (hlive : Live s) {n : ℕ} (hn : n ≤ s.len.toNat) :
    Live (s.advance n) ∧ n + budget (s.advance n) = budget s ∧
      ∀ out, Yields (s.advance n) out → Yields s (bytes s.pkt s.bufp n ++ out) := by
  have hlen := hlive.2
  have hrest : (s.len - n).toNat = s.len.toNat - n := by omega
  have hlive' : Live (s.advance n) := by
    refine ⟨hlive.1, ?_⟩
    simp only [Xyz.advance]
    omega
  refine ⟨hlive', ?_, fun out h ↦ ?_⟩
  · rw [budget, budget, if_pos hlive, if_pos hlive']
    simp only [Xyz.advance]
    omega
  · rw [Yields, if_pos hlive'] at h
    rw [Yields, if_pos hlive]
    obtain ⟨rest, rfl, hdelivers⟩ := h
    refine ⟨rest, ?_, hdelivers⟩
    have hsplit : s.len.toNat = n + (s.len.toNat - n) := by omega
    simp only [Xyz.advance, hrest]
    conv_rhs => rw [hsplit, bytes_append, List.append_assoc]

/-- One call of `xyzModem_stream_read`. -/
theorem readLoop_yields {size : ℕ} {buf buf' : List UInt8} {err : Option Stat} (hcount : Live s → Counted s)
    (h : readLoop size buf s = .returned buf' err s') :
    (Live s' → Counted s' ∧ buf'.length = buf.length + size) ∧
      buf'.length + budget s' ≤ buf.length + budget s ∧
      ∃ d, buf' = buf ++ d ∧ ∀ out, Yields s' out → Yields s (d ++ out) := by
  fun_induction readLoop size buf s with
  | case1 size buf s hdone =>
    cases h
    refine ⟨fun hlive ↦ ⟨hcount hlive, ?_⟩, Nat.le_refl _, [], (List.append_nil _).symm, fun _ h ↦ h⟩
    rw [hdone.resolve_left (by simp [hlive.1]), Nat.add_zero]
  | case2 size buf s hdone hstat =>
    cases h
    have hs : s.atEof = false := by simpa using (not_or.mp hdone).1
    have hlen : s.len = 0 := by
      by_contra hlen
      rw [fillBlock, if_neg hlen] at hstat
      exact hstat rfl
    have hdead : ¬ Live { (fillBlock s).2 with len := -1 } := fun hlive ↦
      absurd (show (0 : ℤ) ≤ -1 from hlive.2) (by decide)
    rw [budget, if_neg hdead]
    refine ⟨fun hlive ↦ absurd hlive hdead, by omega, [], (List.append_nil _).symm, fun out hout ↦ ?_⟩
    rw [Yields, if_neg hdead] at hout
    subst hout
    exact yields_of_delivers hs hlen (.nil _ _)
  | case3 size buf s hdone hstat heof =>
    cases h
    have hs : s.atEof = false := by simpa using (not_or.mp hdone).1
    have hlen : s.len = 0 := by
      by_contra hlen
      rw [fillBlock, if_neg hlen] at heof
      exact Bool.false_ne_true (hs.symm.trans heof)
    have hdead : ¬ Live (fillBlock s).2 := fun hlive ↦ Bool.false_ne_true (hlive.1.symm.trans heof)
    rw [budget, if_neg hdead]
    refine ⟨fun hlive ↦ absurd hlive hdead, by omega, [], (List.append_nil _).symm, fun out hout ↦ ?_⟩
    rw [Yields, if_neg hdead] at hout
    subst hout
    exact yields_of_delivers hs hlen (.nil _ _)
  | case4 size buf s hdone hstat heof hrange => cases h
  | case5 size buf s hdone hstat heof hrange s₁ n ih =>
    have hs : s.atEof = false := by simpa using (not_or.mp hdone).1
    have hlive₁ : Live (fillBlock s).2 := ⟨by simpa using heof, by omega⟩
    have hlive : Live s := by
      refine ⟨hs, ?_⟩
      by_contra hneg
      have hlen : s.len ≠ 0 := by omega
      have hsame : (fillBlock s).2 = s := by rw [fillBlock, if_neg hlen]
      rw [hsame] at hlive₁
      exact hneg hlive₁.2
    obtain ⟨hcount₁, hbudget₁, hyields₁⟩ := fill_yields (hcount hlive) (not_not.mp hstat) hs hlive₁
    obtain ⟨hlive₂, hbudget₂, hyields₂⟩ := advance_yields hlive₁ (n := n) (Nat.min_le_right _ _)
    obtain ⟨hcount', hbudget', d, rfl, hyields'⟩ := ih (fun _ ↦ hcount₁) h
    refine ⟨fun hlive' ↦ ⟨(hcount' hlive').1, ?_⟩, ?_, bytes s₁.pkt s₁.bufp n ++ d, List.append_assoc _ _ _,
      fun out hout ↦ ?_⟩
    · have hn : n ≤ size := Nat.min_le_left _ _
      have hlength := (hcount' hlive').2
      simp only [List.length_append, bytes_length] at hlength ⊢
      omega
    · simp only [List.length_append, bytes_length] at hbudget' ⊢
      have hbudget₂ : n + budget (s₁.advance n) = budget s₁ := hbudget₂
      have hbudget₁ : budget s₁ ≤ budget s := hbudget₁
      omega
    · rw [List.append_assoc]
      exact hyields₁ _ (hyields₂ _ (hyields' _ hout))

/-- The rest of a transfer. -/
theorem loadLoop_yields {offset addr size : ℕ} {m mem : Mem} (hcount : Live s → Counted s)
    (hroom : offset + addr + budget s < 2 ^ 32) (h : loadLoop offset addr m s = .done size mem s') :
    ∃ out, Yields s out ∧ mem = store m (addr + offset) out ∧ size = addr + out.length := by
  fun_induction loadLoop offset addr m s with
  | case1 => cases h
  | case2 addr m s err s₁ hread =>
    cases h
    obtain ⟨hlive, -, d, hd, hyields⟩ := readLoop_yields hcount hread
    have hdead : ¬ Live s' := fun h ↦ absurd (hlive h).2 (by decide)
    have hnil : Yields s' [] := by
      rw [Yields, if_neg hdead]
    obtain rfl : d = [] := hd.symm
    exact ⟨[], hyields [] hnil, (store_nil _ _).symm, rfl⟩
  | case3 addr m s b buf err s₁ hread ih =>
    obtain ⟨hlive, hbudget, d, hd, hyields⟩ := readLoop_yields hcount hread
    obtain rfl : b :: buf = d := hd
    generalize b :: buf = d at *
    have hbudget : d.length + budget s₁ ≤ budget s := by simpa using hbudget
    have haddr : (addr + d.length) % 2 ^ 32 = addr + d.length := Nat.mod_eq_of_lt (by omega)
    have hstore : (addr + offset) % 2 ^ 32 = addr + offset := Nat.mod_eq_of_lt (by omega)
    rw [haddr, hstore] at ih h
    obtain ⟨out, hout, rfl, rfl⟩ := ih (fun h ↦ (hlive h).1) (by omega) h
    refine ⟨d ++ out, hyields _ hout, ?_, ?_⟩
    · have hswap : addr + d.length + offset = addr + offset + d.length := by omega
      rw [hswap, store_store]
    · rw [List.length_append, Nat.add_assoc]

/-- The state in which `xyzModem_stream_open` leaves the receiver. -/
structure Open (line : Line) (s : Xyz) : Prop where
  line : s.line <:+ line
  atEof : s.atEof = false
  readLength : s.readLength = 0
  len : s.len = 0
  nextBlk : s.nextBlk = 1

theorem fileHeader_opened {line : Line} (h : fileHeader s = .opened s') (hline : s.line <:+ line)
    (heof : s.atEof = false) (hread : s.readLength = 0) : Open line s' := by
  unfold fileHeader at h
  dsimp only at h
  split at h
  · cases h
  · split at h
    · cases h
    · cases h
      exact ⟨hline, heof, hread, rfl, rfl⟩
    · cases h
      exact ⟨hline, heof, hread, rfl, rfl⟩

theorem openLoop_opened {n : ℕ} {k : ℤ} {stat : Stat} {line : Line} (h : openLoop n k stat s = .opened s')
    (hline : s.line <:+ line) (heof : s.atEof = false) (hread : s.readLength = 0) : Open line s' := by
  induction n generalizing k stat s with
  | zero => cases h
  | succ n ih =>
    have hlater := getHdr_later s
    rw [openLoop] at h
    generalize getHdr s = r at h hlater
    obtain ⟨stat', s₁⟩ := r
    have hline₁ : s₁.line <:+ line := hlater.line.trans hline
    have heof₁ : s₁.atEof = false := hlater.atEof.trans heof
    have hread₁ : s₁.readLength = 0 := hlater.readLength.trans hread
    cases stat' with
    | ok =>
      dsimp only at h
      split_ifs at h
      · exact fileHeader_opened h hline₁ heof₁ hread₁
      · cases h
        exact ⟨hline₁, heof₁, hread₁, rfl, rfl⟩
    | timeout =>
      dsimp only at h
      split_ifs at h
      · exact ih (s := { s₁ with crcMode := false }.putNak) h hline₁ heof₁ hread₁
      · exact ih (s := s₁.putNak) h hline₁ heof₁ hread₁
    | cancel => cases h
    | _ => exact ih h hline₁ heof₁ hread₁

/-- Whatever comes over the line, `load_serial_ymodem` stores nothing but the data of blocks that have
come with the right numbers and checksums, one behind the other. -/
theorem load_serial_ymodem_intact {offset size : ℕ} {m mem : Mem} (hroom : offset + s.line.length < 2 ^ 32)
    (h : loadSerialYmodem offset m s = .done size mem s') :
    ∃ crc out, Delivers crc 1 s.line out ∧ mem = store m offset out ∧ size = out.length := by
  rw [loadSerialYmodem] at h
  generalize hopen : streamOpen .ymodem s = r at h
  cases r with
  | outside => cases h
  | failed err s₁ =>
    cases h
    exact ⟨true, [], .nil _ _, (store_nil _ _).symm, rfl⟩
  | opened s₁ =>
    have hs₁ : Open s.line s₁ := openLoop_opened hopen (List.suffix_refl _) rfl rfl
    have hlive : Live s₁ := ⟨hs₁.atEof, hs₁.len.ge⟩
    have hbudget : budget s₁ = s₁.line.length := by
      rw [budget, if_pos hlive, hs₁.len]
      exact Nat.zero_add _
    have hcount : Counted s₁ := by
      rw [Counted, hs₁.readLength]
      exact Nat.zero_le _
    have hlength := hs₁.line.length_le
    obtain ⟨out, hout, rfl, rfl⟩ := loadLoop_yields (fun _ ↦ hcount) (by omega) h
    rw [Yields, if_pos hlive, hs₁.len, hs₁.nextBlk] at hout
    obtain ⟨rest, hrest, hdelivers⟩ := hout
    obtain rfl : out = rest := hrest
    rw [Nat.zero_add, Nat.zero_add]
    exact ⟨s₁.crcMode, out, hdelivers.mono hs₁.line, rfl, rfl⟩

end Blocks

open XyzModemTransfer in
theorem load_serial_ymodem_intact_byte : ∃ crc out, Delivers crc 1 byteSession.line out ∧
    store (fun _ ↦ 0) 0x80500000 [0x42] = store (fun _ ↦ 0) 0x80500000 out ∧ 1 = out.length := by
  have hroom : 0x80500000 + [0x42].length ≤ 2 ^ 32 := by decide
  obtain ⟨s₁, s', hopen, hload⟩ := load_session byteSession (List.cons_ne_nil _ _) (by decide) hroom
    (s := freshXyz byteSession.line) rfl (fun _ ↦ 0)
  have hloaded : loadSerialYmodem 0x80500000 (fun _ ↦ 0) (freshXyz byteSession.line) =
      .done 1 (store (fun _ ↦ 0) 0x80500000 [0x42]) s' := by
    rw [loadSerialYmodem, hopen]
    exact hload
  have hlength : 0x80500000 + (freshXyz byteSession.line).line.length < 2 ^ 32 := by
    decide +kernel
  exact load_serial_ymodem_intact hlength hloaded

end UBoot.Common.XyzModemIntact
