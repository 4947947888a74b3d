import Mathlib.Data.Nat.Bitwise
import Mathlib.Tactic.IntervalCases
import Mathlib.Tactic.Ring
import UBoot.LibGeneric.LzmaDecode

namespace UBoot.LibGeneric.LzmaSafety

open Lib.Memory LzmaDecode

variable {α β : Type} {b : Blocks} {d : Decoder}

/-- The read position is inside the input or at its end. -/
def Fits (b : Blocks) (d : Decoder) : Prop := d.rd.buffer ≤ b.inStream.length

/-- A part of the decoder that makes no access outside and returns a value with `P`. -/
def Safe (b : Blocks) (P : α → Prop) (f : Decoder → Option (α × Decoder)) : Prop :=
  ∀ d, Fits b d → ∃ a d', f d = some (a, d') ∧ P a ∧ Fits b d'

section RangeDecoder

variable {rd : RangeDecoder}

theorem readByte_safe (h : rd.buffer ≤ b.inStream.length) :
    ∃ x rd', readByte b rd = some (x, rd') ∧ rd'.buffer ≤ b.inStream.length := by
  rw [readByte]
  split_ifs with hend
  · exact ⟨_, _, rfl, h⟩
  · have hlt : rd.buffer < b.inStream.length := Nat.lt_of_le_of_ne h hend
    rw [List.getElem?_eq_getElem hlt]
    exact ⟨_, _, rfl, hlt⟩

theorem normalize_safe (rd : RangeDecoder) (h : rd.buffer ≤ b.inStream.length) :
    ∃ rd', normalize b rd = some rd' ∧ rd'.buffer ≤ b.inStream.length := by
  rw [LzmaDecode.normalize]
  split_ifs
  · obtain ⟨x, rd', he, hle⟩ := readByte_safe h
    rw [he]
    exact ⟨_, rfl, hle⟩
  · exact ⟨rd, rfl, h⟩

theorem initLoop_safe (n : ℕ) (rd : RangeDecoder) (h : rd.buffer ≤ b.inStream.length) :
    ∃ rd', initLoop b n rd = some rd' ∧ rd'.buffer ≤ b.inStream.length := by
  induction n generalizing rd with
  | zero => exact ⟨rd, rfl, h⟩
  | succ n ih =>
    obtain ⟨x, rd', he, hle⟩ := readByte_safe h
    rw [initLoop, he]
    exact ih _ hle

theorem directBits_safe (i result : ℕ) (h : rd.buffer ≤ b.inStream.length) :
    ∃ r rd', directBits b i result rd = some (r, rd') ∧ rd'.buffer ≤ b.inStream.length := by
  induction i generalizing result rd with
  | zero => exact ⟨result, rd, rfl, h⟩
  | succ i ih =>
    rw [directBits]
    split_ifs
    · obtain ⟨rd', he, hle⟩ := normalize_safe
        { rd with range := rd.range >>> 1, code := rd.code - rd.range >>> 1 } h
      rw [he]
      exact ih _ hle
    · obtain ⟨rd', he, hle⟩ := normalize_safe { rd with range := rd.range >>> 1 } h
      rw [he]
      exact ih _ hle

end RangeDecoder

theorem bitDecode_safe {i : ℕ} (hi : i < b.numProbs) : Safe b (· ≤ 1) (bitDecode b i) := by
  intro d hd
  rw [bitDecode, if_pos hi]
  simp only
  split_ifs
  · obtain ⟨rd', he, hle⟩ := normalize_safe (b := b)
      { d.rd with range := d.rd.range >>> 11 * d.p i % 2 ^ 32 } hd
    rw [he]
    exact ⟨0, _, rfl, Nat.zero_le _, hle⟩
  · obtain ⟨rd', he, hle⟩ := normalize_safe (b := b)
      { d.rd with
        range := d.rd.range - d.rd.range >>> 11 * d.p i % 2 ^ 32
        code := d.rd.code - d.rd.range >>> 11 * d.p i % 2 ^ 32 } hd
    rw [he]
    exact ⟨1, _, rfl, Nat.le_refl _, hle⟩

/-- The node numbers of a tree of `m` models stay below `m`. -/
theorem bitTreeLoop_safe {probs m n mi : ℕ} (hm : probs + m ≤ b.numProbs)
    (h : (mi + 1) * 2 ^ n ≤ 2 * m) :
    Safe b (fun r ↦ mi * 2 ^ n ≤ r ∧ r < (mi + 1) * 2 ^ n) (bitTreeLoop b probs n mi) := by
  induction n generalizing mi with
  | zero => exact fun d hd ↦ ⟨mi, d, rfl, by omega, hd⟩
  | succ n ih =>
    intro d hd
    have hhalf : (mi + 1) * 2 ^ n ≤ m := by
      rw [Nat.pow_succ, ← Nat.mul_assoc] at h
      omega
    have hmi : mi + 1 ≤ (mi + 1) * 2 ^ n := Nat.le_mul_of_pos_right _ (Nat.two_pow_pos n)
    obtain ⟨bit, d₁, he, hbit, hd₁⟩ := bitDecode_safe (b := b) (i := probs + mi) (by omega) d hd
    have hnext : (mi + mi + bit + 1) * 2 ^ n ≤ (mi + 1) * 2 ^ (n + 1) := by
      calc (mi + mi + bit + 1) * 2 ^ n ≤ (mi + mi + 1 + 1) * 2 ^ n :=
            Nat.mul_le_mul_right _ (by omega)
        _ = (mi + 1) * 2 ^ (n + 1) := by ring
    have hfirst : mi * 2 ^ (n + 1) ≤ (mi + mi + bit) * 2 ^ n := by
      calc mi * 2 ^ (n + 1) = (mi + mi) * 2 ^ n := by ring
        _ ≤ (mi + mi + bit) * 2 ^ n := Nat.mul_le_mul_right _ (by omega)
    obtain ⟨r, d₂, he₂, hr, hd₂⟩ := ih (Nat.le_trans hnext h) d₁ hd₁
    rw [bitTreeLoop, he]
    exact ⟨r, d₂, he₂, by omega, hd₂⟩

theorem bitTreeDecode_safe (probs numLevels : ℕ) (h : probs + 2 ^ numLevels ≤ b.numProbs) :
    Safe b (· < 2 ^ numLevels) (bitTreeDecode b probs numLevels) := by
  intro d hd
  obtain ⟨mi, d₁, he, hmi, hd₁⟩ := bitTreeLoop_safe h (n := numLevels) (Nat.le_refl (2 * 2 ^ numLevels)) d hd
  rw [bitTreeDecode, he]
  refine ⟨mi - 1 <<< numLevels, d₁, rfl, ?_, hd₁⟩
  rw [Nat.one_shiftLeft]
  omega

theorem reverseLoop_safe {probs m n i mi symbol : ℕ} (hm : probs + m ≤ b.numProbs)
    (h : (mi + 1) * 2 ^ n ≤ 2 * m) : Safe b (fun _ ↦ True) (reverseLoop b probs n i mi symbol) := by
  induction n generalizing i mi symbol with
  | zero => exact fun d hd ↦ ⟨symbol, d, rfl, trivial, hd⟩
  | succ n ih =>
    intro d hd
    have hhalf : (mi + 1) * 2 ^ n ≤ m := by
      rw [Nat.pow_succ, ← Nat.mul_assoc] at h
      omega
    have hmi : mi + 1 ≤ (mi + 1) * 2 ^ n := Nat.le_mul_of_pos_right _ (Nat.two_pow_pos n)
    obtain ⟨bit, d₁, he, hbit, hd₁⟩ := bitDecode_safe (b := b) (i := probs + mi) (by omega) d hd
    rw [reverseLoop, he]
    refine ih ?_ d₁ hd₁
    calc (mi + mi + bit + 1) * 2 ^ n ≤ (mi + mi + 1 + 1) * 2 ^ n :=
          Nat.mul_le_mul_right _ (by omega)
      _ = (mi + 1) * 2 ^ (n + 1) := by ring
      _ ≤ 2 * m := h

theorem reverseBitTreeDecode_safe (probs numLevels : ℕ) (h : probs + 2 ^ numLevels ≤ b.numProbs) :
    Safe b (fun _ ↦ True) (reverseBitTreeDecode b probs numLevels) :=
  reverseLoop_safe h (Nat.le_refl _)

/-- The symbol doubles, so that the rounds are enough. -/
theorem literalLoop_safe {probs : ℕ} (n symbol : ℕ) (hm : probs + 0x100 ≤ b.numProbs)
    (h : 0x100 ≤ symbol * 2 ^ n) : Safe b (fun _ ↦ True) (literalLoop b probs n symbol) := by
  induction n generalizing symbol with
  | zero =>
    intro d hd
    rw [Nat.pow_zero, Nat.mul_one] at h
    rw [literalLoop, if_neg (by omega)]
    exact ⟨symbol, d, rfl, trivial, hd⟩
  | succ n ih =>
    intro d hd
    rw [literalLoop]
    split_ifs with hlt
    · obtain ⟨bit, d₁, he, hbit, hd₁⟩ := bitDecode_safe (b := b) (i := probs + symbol) (by omega) d hd
      rw [he]
      refine ih _ ?_ d₁ hd₁
      calc 0x100 ≤ symbol * 2 ^ (n + 1) := h
        _ = (symbol + symbol) * 2 ^ n := by ring
        _ ≤ (symbol + symbol ||| bit) * 2 ^ n := Nat.mul_le_mul_right _ Nat.left_le_or
    · exact ⟨symbol, d, rfl, trivial, hd⟩

theorem lzmaLiteralDecode_safe {probs : ℕ} (hm : probs + 0x300 ≤ b.numProbs) :
    Safe b (fun _ ↦ True) (lzmaLiteralDecode b probs) := by
  intro d hd
  obtain ⟨symbol, d₁, he, -, hd₁⟩ := literalLoop_safe (b := b) 8 1
    (by omega : probs + 0x100 ≤ _) (by decide) d hd
  rw [lzmaLiteralDecode, he]
  exact ⟨UInt8.ofNat symbol, d₁, rfl, trivial, hd₁⟩

theorem matchLoop_safe {probs : ℕ} (n symbol : ℕ) (matchByte : UInt8) (hm : probs + 0x300 ≤ b.numProbs)
    (hlt : symbol < 0x100) (h : 0x100 ≤ symbol * 2 ^ n) :
    Safe b (fun _ ↦ True) (matchLoop b probs n matchByte symbol) := by
  induction n generalizing symbol matchByte with
  | zero =>
    rw [Nat.pow_zero, Nat.mul_one] at h
    omega
  | succ n ih =>
    intro d hd
    have hbit : (matchByte.toNat >>> 7) &&& 1 ≤ 1 := Nat.and_le_right
    have hindex : ((matchByte.toNat >>> 7) &&& 1) <<< 8 ≤ 0x100 := by
      rw [Nat.shiftLeft_eq]
      omega
    obtain ⟨bit, d₁, he, -, hd₁⟩ := bitDecode_safe (b := b)
      (i := probs + 0x100 + ((matchByte.toNat >>> 7) &&& 1) <<< 8 + symbol) (by omega) d hd
    have hnext : 0x100 ≤ (symbol <<< 1 ||| bit) * 2 ^ n := by
      calc 0x100 ≤ symbol * 2 ^ (n + 1) := h
        _ = symbol <<< 1 * 2 ^ n := by
          rw [Nat.shiftLeft_eq]
          ring
        _ ≤ (symbol <<< 1 ||| bit) * 2 ^ n := Nat.mul_le_mul_right _ Nat.left_le_or
    simp only [matchLoop, he, Option.bind_eq_bind, Option.bind_some]
    split_ifs with hsame hmore
    · exact literalLoop_safe n _ (by omega) hnext d₁ hd₁
    · exact ih _ _ hmore hnext d₁ hd₁
    · exact ⟨_, d₁, rfl, trivial, hd₁⟩

theorem lzmaLiteralDecodeMatch_safe {probs : ℕ} (matchByte : UInt8) (hm : probs + 0x300 ≤ b.numProbs) :
    Safe b (fun _ ↦ True) (lzmaLiteralDecodeMatch b probs matchByte) := by
  intro d hd
  obtain ⟨symbol, d₁, he, -, hd₁⟩ := matchLoop_safe 8 1 matchByte hm (by decide) (by decide) d hd
  rw [lzmaLiteralDecodeMatch, he]
  exact ⟨UInt8.ofNat symbol, d₁, rfl, trivial, hd₁⟩

theorem lzmaLenDecode_safe {p posState : ℕ} (hp : p + 514 ≤ b.numProbs) (hpos : posState < 16) :
    Safe b (fun _ ↦ True) (lzmaLenDecode b p posState) := by
  intro d hd
  have hshift : posState <<< 3 ≤ 120 := by
    rw [Nat.shiftLeft_eq]
    omega
  have hlow : p + 2 + posState <<< 3 + 2 ^ 3 ≤ b.numProbs := by omega
  have hmid : p + 130 + posState <<< 3 + 2 ^ 3 ≤ b.numProbs := by omega
  obtain ⟨choice, d₁, he₁, -, hd₁⟩ := bitDecode_safe (b := b) (i := p + 0) (by omega) d hd
  obtain ⟨choice2, d₂, he₂, -, hd₂⟩ := bitDecode_safe (b := b) (i := p + 1) (by omega) d₁ hd₁
  simp only [lzmaLenDecode, lenChoice, lenChoice2, he₁, he₂, Option.bind_eq_bind, Option.bind_some]
  split_ifs
  · obtain ⟨len, d₃, he₃, -, hd₃⟩ := bitTreeDecode_safe _ _ hlow d₁ hd₁
    exact ⟨len, d₃, he₃, trivial, hd₃⟩
  · obtain ⟨len, d₃, he₃, -, hd₃⟩ := bitTreeDecode_safe _ _ hmid d₂ hd₂
    exact ⟨_, d₃, by rw [lenMid, kLenNumMidBits, he₃]; rfl, trivial, hd₃⟩
  · obtain ⟨len, d₃, he₃, -, hd₃⟩ := bitTreeDecode_safe (b := b) (p + 258) 8
      (by omega) d₂ hd₂
    exact ⟨_, d₃, by rw [lenHigh, kLenNumHighBits, he₃]; rfl, trivial, hd₃⟩

/-- The models of a distance's footer lie between those of the slots and `align`. -/
theorem footer_inside {slot : ℕ} (h : kStartPosModelIndex ≤ slot) (hend : slot < kEndPosModelIndex) :
    specPos + (2 ||| (slot &&& 1)) <<< (slot >>> 1 - 1) % 2 ^ 32 - slot - 1 + 2 ^ (slot >>> 1 - 1) ≤ align := by
  rw [kStartPosModelIndex] at h
  rw [kEndPosModelIndex] at hend
  interval_cases slot <;> decide

theorem distance_safe (len : ℕ) (h : literal ≤ b.numProbs) : Safe b (fun _ ↦ True) (distance b len) := by
  intro d hd
  rw [literal] at h
  have hlen : (if len < kNumLenToPosStates then len else kNumLenToPosStates - 1) <<< kNumPosSlotBits ≤ 192 := by
    rw [Nat.shiftLeft_eq, kNumLenToPosStates, kNumPosSlotBits]
    split_ifs <;> omega
  obtain ⟨slot, d₁, he₁, -, hd₁⟩ := bitTreeDecode_safe (b := b)
    (posSlot + (if len < kNumLenToPosStates then len else kNumLenToPosStates - 1) <<< kNumPosSlotBits)
    kNumPosSlotBits (by rw [posSlot, show 2 ^ kNumPosSlotBits = 64 from rfl]; omega) d hd
  simp only [distance, he₁, Option.bind_eq_bind, Option.bind_some]
  split_ifs with hstart hend
  · have hinside := footer_inside hstart hend
    rw [align] at hinside
    obtain ⟨low, d₂, he₂, -, hd₂⟩ := reverseBitTreeDecode_safe _ _ (Nat.le_trans hinside (by omega)) d₁ hd₁
    exact ⟨_, d₂, by rw [he₂]; rfl, trivial, hd₂⟩
  · obtain ⟨high, rd, he₂, hle⟩ := directBits_safe (b := b)
      (slot >>> 1 - 1 - kNumAlignBits) 0 hd₁
    obtain ⟨low, d₂, he₃, -, hd₂⟩ := reverseBitTreeDecode_safe (b := b) align
      kNumAlignBits (by rw [align, kNumAlignBits]; omega) { d₁ with rd := rd } hle
    exact ⟨_, d₂, by simp only [he₂, he₃, Option.bind_some]; rfl, trivial, hd₂⟩
  · exact ⟨slot, d₁, rfl, trivial, hd₁⟩

/-- Properties that go with the models that are set up. -/
structure Sized (b : Blocks) (c : Properties) : Prop where
  numProbs : b.numProbs = literal + lzmaLitSize <<< (c.lc + c.lp)
  lc_le : c.lc ≤ 8
  pb_le : c.pb ≤ 4
  outSize_lt : b.outSize < 2 ^ 32

/-- What holds between two rounds of the loop, for a memory that was `m` before. -/
structure Inside (b : Blocks) (m : Mem) (s : State) : Prop where
  fits : Fits b s.dec
  state_lt : s.state < 12
  nowPos_le : s.nowPos ≤ b.outSize
  rep0_pos : 0 < s.rep0
  rep0_le : s.rep0 ≤ max s.nowPos 1
  first : s.nowPos = 0 → s.state < kNumLitStates
  frame : ∀ i, b.outSize ≤ i → s.outStream i = m i

variable {c : Properties} {m : Mem} {s : State}

theorem Sized.literal_le (hb : Sized b c) : literal ≤ b.numProbs := by
  rw [hb.numProbs]
  exact Nat.le_add_right _ _

/-- The models of a literal. -/
theorem Sized.literal_inside (hb : Sized b c) (nowPos : ℕ) (previousByte : UInt8) :
    literal + lzmaLitSize * ((nowPos &&& (1 <<< c.lp - 1)) <<< c.lc + previousByte.toNat >>> (8 - c.lc)) +
      0x300 ≤ b.numProbs := by
  have hpos : nowPos &&& (1 <<< c.lp - 1) < 2 ^ c.lp := by
    rw [Nat.one_shiftLeft, Nat.and_two_pow_sub_one_eq_mod]
    exact Nat.mod_lt _ (Nat.two_pow_pos _)
  have hprev : previousByte.toNat >>> (8 - c.lc) < 2 ^ c.lc := by
    rw [Nat.shiftRight_eq_div_pow, Nat.div_lt_iff_lt_mul (Nat.two_pow_pos _), ← Nat.pow_add,
      show c.lc + (8 - c.lc) = 8 by have := hb.lc_le; omega]
    exact previousByte.toNat_lt
  have hsum : (nowPos &&& (1 <<< c.lp - 1)) <<< c.lc + previousByte.toNat >>> (8 - c.lc) + 1 ≤
      2 ^ (c.lc + c.lp) := by
    calc (nowPos &&& (1 <<< c.lp - 1)) <<< c.lc + previousByte.toNat >>> (8 - c.lc) + 1
        ≤ (nowPos &&& (1 <<< c.lp - 1)) * 2 ^ c.lc + 2 ^ c.lc := by
          rw [Nat.shiftLeft_eq]
          omega
      _ = ((nowPos &&& (1 <<< c.lp - 1)) + 1) * 2 ^ c.lc := by ring
      _ ≤ 2 ^ c.lp * 2 ^ c.lc := Nat.mul_le_mul_right _ hpos
      _ = 2 ^ (c.lc + c.lp) := by rw [← Nat.pow_add, Nat.add_comm]
  rw [hb.numProbs, Nat.shiftLeft_eq, lzmaLitSize]
  omega

theorem matchByte_eq (hpos : 0 < s.rep0) (hle : s.rep0 ≤ s.nowPos) (hlt : s.nowPos < 2 ^ 32) :
    s.matchByte = some (s.outStream (s.nowPos - s.rep0)) := by
  have hindex : (s.nowPos + 2 ^ 32 - s.rep0) % 2 ^ 32 = s.nowPos - s.rep0 := by omega
  rw [State.matchByte, hindex]
  exact if_pos (by omega)

theorem put_eq (h : s.nowPos < b.outSize) (x : UInt8) :
    s.put b x = some { s with
      previousByte := x
      outStream := store s.outStream s.nowPos [x]
      nowPos := s.nowPos + 1 } := if_pos h

/-- The state before the byte is written may still have the new state and distances. -/
theorem Inside.put (h : Inside b m s) (hlt : s.nowPos < b.outSize) (s' : State) (x : UInt8)
    (hfits : Fits b s'.dec) (hstate : s'.state < 12) (hrep : 0 < s'.rep0) (hle : s'.rep0 ≤ max s.nowPos 1)
    (hpos : s'.nowPos = s.nowPos + 1) (hout : s'.outStream = store s.outStream s.nowPos [x]) :
    Inside b m s' := by
  refine ⟨hfits, hstate, by omega, hrep, by omega, by omega, fun i hi ↦ ?_⟩
  rw [hout, store_of_le _ (by rw [List.length_singleton]; omega)]
  exact h.frame i hi

theorem copyMatch_safe (len : ℕ) (h : Inside b m s) (hlt : s.nowPos < b.outSize)
    (hout : b.outSize < 2 ^ 32) (hle : s.rep0 ≤ s.nowPos) :
    ∃ s', copyMatch b (len + 1) s = some s' ∧ Inside b m s' ∧ s.nowPos < s'.nowPos := by
  induction len generalizing s with
  | zero =>
    rw [copyMatch, matchByte_eq h.rep0_pos hle (by omega)]
    simp only [Option.bind_eq_bind, Option.bind_some, put_eq hlt]
    rw [if_neg (by omega)]
    exact ⟨_, rfl, h.put hlt _ _ h.fits h.state_lt h.rep0_pos h.rep0_le rfl rfl, Nat.lt_succ_self _⟩
  | succ len ih =>
    have hnext := h.put hlt { s with
      previousByte := s.outStream (s.nowPos - s.rep0)
      outStream := store s.outStream s.nowPos [s.outStream (s.nowPos - s.rep0)]
      nowPos := s.nowPos + 1 } _ h.fits h.state_lt h.rep0_pos h.rep0_le rfl rfl
    rw [copyMatch, matchByte_eq h.rep0_pos hle (by omega)]
    simp only [Option.bind_eq_bind, Option.bind_some, put_eq hlt]
    split_ifs with hmore
    · obtain ⟨s', he, hs', hprogress⟩ := ih hnext hmore.2 (Nat.le_succ_of_le hle)
      exact ⟨s', he, hs', Nat.lt_of_succ_lt hprogress⟩
    · exact ⟨_, rfl, hnext, Nat.lt_succ_self _⟩

/-- A round ends, inside its blocks; the loop goes on with more bytes than before. -/
def Ends (b : Blocks) (m : Mem) (nowPos : ℕ) (t : Option Turn) : Prop :=
  ∃ t', t = some t' ∧ match t' with
    | .next s => Inside b m s ∧ nowPos < s.nowPos
    | .stop s => s.nowPos ≤ b.outSize ∧ ∀ i, b.outSize ≤ i → s.outStream i = m i
    | .dataError s => ∀ i, b.outSize ≤ i → s.outStream i = m i

theorem copyTurn_safe (len : ℕ) (h : Inside b m s) (hlt : s.nowPos < b.outSize)
    (hout : b.outSize < 2 ^ 32) {s' : State} (hfits : Fits b s'.dec) (hstate : s'.state < 12)
    (hpos : s'.nowPos = s.nowPos) (hmem : s'.outStream = s.outStream) :
    Ends b m s.nowPos (copyTurn b len s') := by
  have hframe : ∀ i, b.outSize ≤ i → s'.outStream i = m i := by
    rw [hmem]
    exact h.frame
  rw [copyTurn]
  split_ifs with hzero hfar
  · exact ⟨_, rfl, by omega, hframe⟩
  · exact ⟨_, rfl, hframe⟩
  · have hs' : Inside b m s' := ⟨hfits, hstate, by omega, by omega, by omega, by omega, hframe⟩
    obtain ⟨s₁, he, hs₁, hprogress⟩ := copyMatch_safe (len + 1) hs' (by omega) hout (by omega)
    rw [show len + kMatchMinLen = len + 1 + 1 from rfl, he]
    exact ⟨_, rfl, hs₁, by omega⟩

theorem literalTurn_safe (hb : Sized b c) (h : Inside b m s) (hlt : s.nowPos < b.outSize) {d : Decoder}
    (hd : Fits b d) : Ends b m s.nowPos (literalTurn b c s d) := by
  have hprobs := hb.literal_inside s.nowPos s.previousByte
  have hnext : (if s.state < 4 then 0 else if s.state < 10 then s.state - 3 else s.state - 6) < 12 := by
    have := h.state_lt
    split_ifs <;> omega
  rw [literalTurn]
  simp only [Option.bind_eq_bind]
  split_ifs with hstate
  · have hfirst : s.nowPos ≠ 0 := fun hzero ↦ absurd (h.first hzero) (by omega)
    have hle := h.rep0_le
    have hbyte := matchByte_eq h.rep0_pos (by omega) (Nat.lt_trans hlt hb.outSize_lt)
    obtain ⟨x, d₁, he, -, hd₁⟩ := lzmaLiteralDecodeMatch_safe
      (s.outStream (s.nowPos - s.rep0)) hprobs d hd
    simp only [hbyte, Option.bind_some, he]
    rw [put_eq (s := { s with dec := d₁ }) hlt x]
    exact ⟨_, rfl, h.put hlt _ x hd₁ hnext h.rep0_pos h.rep0_le rfl rfl, Nat.lt_succ_self _⟩
  · obtain ⟨x, d₁, he, -, hd₁⟩ := lzmaLiteralDecode_safe hprobs d hd
    simp only [he, Option.bind_some]
    rw [put_eq (s := { s with dec := d₁ }) hlt x]
    exact ⟨_, rfl, h.put hlt _ x hd₁ hnext h.rep0_pos h.rep0_le rfl rfl, Nat.lt_succ_self _⟩

section Turn

variable {d : Decoder} {posState : ℕ}

theorem repLength_safe (hb : Sized b c) (h : Inside b m s) (hlt : s.nowPos < b.outSize)
    (hposState : posState < 16) (hd : Fits b d) {s' : State} (hpos : s'.nowPos = s.nowPos)
    (hmem : s'.outStream = s.outStream) : Ends b m s.nowPos (repLength b posState s' d) := by
  have hliteral := hb.literal_le
  rw [literal] at hliteral
  obtain ⟨len, d₁, he, -, hd₁⟩ := lzmaLenDecode_safe (b := b) (p := repLenCoder)
    (by rw [repLenCoder]; omega) hposState d hd
  rw [repLength, he]
  exact copyTurn_safe len h hlt hb.outSize_lt hd₁ (by simp only; split_ifs <;> omega) hpos hmem

theorem repTurn_safe (hb : Sized b c) (h : Inside b m s) (hlt : s.nowPos < b.outSize)
    (hposState : posState < 16) (hd : Fits b d) :
    Ends b m s.nowPos (repTurn b posState s d) := by
  have hliteral := hb.literal_le
  have hstate := h.state_lt
  have hle := h.rep0_le
  rw [literal] at hliteral
  obtain ⟨g0, d₁, he₁, -, hd₁⟩ := bitDecode_safe (b := b) (i := isRepG0 + s.state)
    (by rw [isRepG0]; omega) d hd
  obtain ⟨long, d₂, he₂, -, hd₂⟩ := bitDecode_safe (b := b)
    (i := isRep0Long + s.state <<< kNumPosBitsMax + posState)
    (by rw [isRep0Long, kNumPosBitsMax, Nat.shiftLeft_eq]; omega) d₁ hd₁
  obtain ⟨g1, d₃, he₃, -, hd₃⟩ := bitDecode_safe (b := b) (i := isRepG1 + s.state)
    (by rw [isRepG1]; omega) d₁ hd₁
  obtain ⟨g2, d₄, he₄, -, hd₄⟩ := bitDecode_safe (b := b) (i := isRepG2 + s.state)
    (by rw [isRepG2]; omega) d₃ hd₃
  simp only [repTurn, he₁, he₂, he₃, he₄, Option.bind_eq_bind, Option.bind_some]
  have hshort : (if s.state < 7 then 9 else 11) < 12 := by
    split_ifs <;> omega
  by_cases hg0 : g0 = 0
  · rw [if_pos hg0]
    by_cases hlong : long = 0
    · rw [if_pos hlong]
      by_cases hfirst : s.nowPos = 0
      · rw [if_pos hfirst]
        exact ⟨_, rfl, h.frame⟩
      · rw [if_neg hfirst, matchByte_eq (s := { s with dec := d₂, state := _ }) h.rep0_pos
          (by simp only; omega) (Nat.lt_trans hlt hb.outSize_lt), Option.bind_some, put_eq (by exact hlt)]
        exact ⟨_, rfl, h.put hlt _ _ hd₂ hshort h.rep0_pos h.rep0_le rfl rfl, Nat.lt_succ_self _⟩
    · rw [if_neg hlong]
      exact repLength_safe hb h hlt hposState hd₂ rfl rfl
  · rw [if_neg hg0]
    by_cases hg1 : g1 = 0
    · rw [if_pos hg1]
      exact repLength_safe hb h hlt hposState hd₃ rfl rfl
    · rw [if_neg hg1]
      split_ifs
      · exact repLength_safe hb h hlt hposState hd₄ rfl rfl
      · exact repLength_safe hb h hlt hposState hd₄ rfl rfl

theorem matchTurn_safe (hb : Sized b c) (h : Inside b m s) (hlt : s.nowPos < b.outSize)
    (hposState : posState < 16) (hd : Fits b d) :
    Ends b m s.nowPos (matchTurn b posState s d) := by
  have hliteral := hb.literal_le
  obtain ⟨len, d₁, he₁, -, hd₁⟩ := lzmaLenDecode_safe (b := b) (p := lenCoder)
    (by rw [literal] at hliteral; rw [lenCoder]; omega) hposState d hd
  obtain ⟨rep0, d₂, he₂, -, hd₂⟩ := distance_safe len hliteral d₁ hd₁
  simp only [matchTurn, he₁, he₂, Option.bind_eq_bind, Option.bind_some]
  exact copyTurn_safe len h hlt hb.outSize_lt hd₂ (by simp only; split_ifs <;> omega) rfl rfl

/-- One round of the loop. -/
theorem turn_safe (hb : Sized b c) (h : Inside b m s) (hlt : s.nowPos < b.outSize) :
    Ends b m s.nowPos (turn b c s) := by
  have hliteral := hb.literal_le
  have hstate := h.state_lt
  have hposState : s.nowPos &&& (1 <<< c.pb - 1) < 16 := by
    have hle : (2 : ℕ) ^ c.pb ≤ 2 ^ 4 := Nat.pow_le_pow_right (by omega) hb.pb_le
    have hmod := Nat.mod_lt s.nowPos (Nat.two_pow_pos c.pb)
    rw [Nat.one_shiftLeft, Nat.and_two_pow_sub_one_eq_mod]
    omega
  rw [literal] at hliteral
  obtain ⟨bit, d₁, he₁, -, hd₁⟩ := bitDecode_safe (b := b)
    (i := isMatch + s.state <<< kNumPosBitsMax + (s.nowPos &&& (1 <<< c.pb - 1)))
    (by rw [isMatch, kNumPosBitsMax, Nat.shiftLeft_eq]; omega) s.dec h.fits
  obtain ⟨rep, d₂, he₂, -, hd₂⟩ := bitDecode_safe (b := b) (i := isRep + s.state)
    (by rw [isRep]; omega) d₁ hd₁
  simp only [turn, he₁, he₂, Option.bind_eq_bind, Option.bind_some]
  split_ifs
  · exact ⟨_, rfl, h.frame⟩
  · exact literalTurn_safe hb h hlt hd₁
  · exact repTurn_safe hb h hlt hposState hd₂
  · exact matchTurn_safe hb h hlt hposState hd₂

end Turn

/-- What a call leaves of a memory that was `m` before. -/
structure Contained (outSize : ℕ) (m : Mem) (o : Outcome) : Prop where
  result : o.result = lzmaResultOk ∨ o.result = lzmaResultDataError
  processed : ∀ n, o.outSizeProcessed = some n → n ≤ outSize
  frame : ∀ i, outSize ≤ i → o.outStream i = m i

/-- The loop ends within the rounds that are allowed. -/
theorem decodeLoop_safe (hb : Sized b c) (n : ℕ) (h : Inside b m s) (hn : b.outSize < s.nowPos + n) :
    ∃ o, decodeLoop b c n s = some o ∧ Contained b.outSize m o := by
  induction n generalizing s with
  | zero => exact absurd h.nowPos_le (by omega)
  | succ n ih =>
    rw [decodeLoop]
    split_ifs with hlt
    · obtain ⟨t, he, ht⟩ := turn_safe hb h hlt
      rw [he]
      cases t with
      | next s' => exact ih ht.1 (by have := ht.2; omega)
      | stop s' =>
        refine ⟨_, rfl, Or.inl rfl, fun k hk ↦ ?_, ht.2⟩
        cases hk
        exact ht.1
      | dataError s' =>
        refine ⟨_, rfl, Or.inr rfl, fun k hk ↦ ?_, ht⟩
        cases hk
        exact Nat.zero_le _
    · refine ⟨_, rfl, Or.inl rfl, fun k hk ↦ ?_, h.frame⟩
      cases hk
      exact h.nowPos_le

theorem lzmaDecode_safe {bufferSize : ℕ} (hlc : c.lc ≤ 8) (hpb : c.pb ≤ 4)
    (hbuffer : (literal + lzmaLitSize <<< (c.lc + c.lp)) * 2 ≤ bufferSize) (inStream : List UInt8)
    (outStream : Mem) {outSize : ℕ} (hout : outSize < 2 ^ 32) :
    ∃ o, lzmaDecode bufferSize c inStream outStream outSize = some o ∧ Contained outSize outStream o := by
  obtain ⟨rd, he, hle⟩ := initLoop_safe
    (b := ⟨literal + lzmaLitSize <<< (c.lc + c.lp), inStream, outSize⟩)
    5 { buffer := 0, range := 0xFFFFFFFF, code := 0, extraBytes := 0 } (Nat.zero_le _)
  rw [lzmaDecode]
  simp only [rangeDecoderInit, he, Option.bind_eq_bind, Option.bind_some]
  rw [if_neg (by omega)]
  refine decodeLoop_safe ⟨rfl, hlc, hpb, hout⟩ _ ?_ (by simp only; omega)
  exact ⟨hle, by simp, Nat.zero_le _, Nat.one_pos, by simp, fun _ ↦ by simp [kNumLitStates],
    fun _ _ ↦ rfl⟩

theorem divLoop_eq {d n v : ℕ} (k : ℕ) (h : v < d * n) : divLoop d n k v = (k + v / d, v % d) := by
  have hd : 0 < d := Nat.pos_of_ne_zero fun hzero ↦ by
    rw [hzero, Nat.zero_mul] at h
    exact Nat.not_lt_zero _ h
  induction n generalizing k v with
  | zero => exact absurd h (by omega)
  | succ n ih =>
    rw [divLoop]
    split_ifs with hge
    · have hlt : v - d < d * n := by
        rw [Nat.mul_succ] at h
        omega
      rw [ih (k + 1) hlt, Nat.add_assoc, Nat.div_eq_sub_div hd hge, Nat.add_comm 1,
        ← Nat.mod_eq_sub_mod hge]
    · rw [Nat.div_eq_of_lt (by omega), Nat.mod_eq_of_lt (by omega), Nat.add_zero]

section Header

variable {inBuffer : List UInt8}

theorem sizeLoop_safe {n i : ℕ} (outSize : ℕ) (h : i + n ≤ 4) (hlength : 13 ≤ inBuffer.length)
    (hlt : outSize < 2 ^ 32) : ∃ r, sizeLoop inBuffer n i outSize = some r ∧ r < 2 ^ 32 := by
  induction n generalizing i outSize with
  | zero => exact ⟨outSize, rfl, hlt⟩
  | succ n ih =>
    rw [sizeLoop, List.getElem?_eq_getElem (by omega)]
    exact ih _ (by omega) (Nat.mod_lt _ (by omega))

theorem tooLong_safe {n i : ℕ} (h : i + n ≤ 4) (hlength : 13 ≤ inBuffer.length) :
    ∃ r, tooLong inBuffer n i = some r := by
  induction n generalizing i with
  | zero => exact ⟨false, rfl⟩
  | succ n ih =>
    rw [tooLong, List.getElem?_eq_getElem (by omega)]
    simp only [Option.bind_eq_bind, Option.bind_some]
    split_ifs
    · exact ⟨true, rfl⟩
    · exact ih (by omega)

/-- Whatever the image holds, as long as its header is there: the models, the input and the history
are accessed inside their blocks, the call returns, and it changes no byte behind the size that the
header gives. -/
theorem lzma_decode_contained (hlength : 13 ≤ inBuffer.length) (outBuffer : Mem) :
    ∃ outSize o, sizeLoop inBuffer 4 0 0 = some outSize ∧ lzma_decode inBuffer outBuffer = some o ∧
      (o.result = 0 ∨ o.result = 1) ∧ (∀ n, o.outSizeProcessed = some n → n ≤ outSize) ∧
      ∀ i, outSize ≤ i → o.outStream i = outBuffer i := by
  obtain ⟨outSize, hsize, hlt⟩ := sizeLoop_safe (n := 4) (i := 0) 0 (by omega) hlength
    (by omega)
  obtain ⟨long, hlong⟩ := tooLong_safe (n := 4) (i := 0) (by omega) hlength
  have hread (i : ℕ) (hi : i < 13) : ∃ b, inBuffer[i]? = some b :=
    ⟨_, List.getElem?_eq_getElem (by omega)⟩
  obtain ⟨b₀, h₀⟩ := hread 0 (by omega)
  obtain ⟨b₁, h₁⟩ := hread 1 (by omega)
  obtain ⟨b₂, h₂⟩ := hread 2 (by omega)
  obtain ⟨b₃, h₃⟩ := hread 3 (by omega)
  obtain ⟨b₄, h₄⟩ := hread 4 (by omega)
  have hrefused : ∃ o : Outcome, some (⟨1, none, outBuffer⟩ : Outcome) = some o ∧
      (o.result = 0 ∨ o.result = 1) ∧ (∀ n, o.outSizeProcessed = some n → n ≤ outSize) ∧
      ∀ i, outSize ≤ i → o.outStream i = outBuffer i :=
    ⟨_, rfl, Or.inr rfl, fun _ h ↦ absurd h (by simp), fun _ _ ↦ rfl⟩
  refine ⟨outSize, ?_⟩
  simp only [exists_and_left]
  refine ⟨hsize, ?_⟩
  simp only [lzma_decode, List.mapM_cons, List.mapM_nil, h₀, h₁, h₂, h₃, h₄, hsize, hlong, Option.pure_def,
    Option.bind_eq_bind, Option.bind_some]
  split_ifs with hstream htooLong hprop hlarge
  · exact hrefused
  · exact hrefused
  · exact hrefused
  · exact hrefused
  · have hpb := divLoop_eq (n := 5) (v := b₀.toNat) 0 (d := 9 * 5) (by omega)
    have hlp := divLoop_eq (n := 5) (v := b₀.toNat % (9 * 5)) 0 (d := 9) (by omega)
    simp only [hpb, hlp, Nat.zero_add] at hlarge ⊢
    obtain ⟨o, he, ho⟩ := lzmaDecode_safe
      (c := ⟨b₀.toNat % (9 * 5) % 9, b₀.toNat % (9 * 5) / 9,
        b₀.toNat / (9 * 5)⟩) (by simp only; omega) (by simp only; omega)
      (Nat.le_refl _) (inBuffer.drop 13) outBuffer hlt
    exact ⟨o, he, ho.result, ho.processed, ho.frame⟩

end Header

/-- A header that is refused. -/
theorem lzma_decode_contained_refused : ∃ outSize o,
    sizeLoop (List.replicate 13 0xFE) 4 0 0 = some outSize ∧
      lzma_decode (List.replicate 13 0xFE) (fun _ ↦ 0) = some o ∧
      (o.result = 0 ∨ o.result = 1) ∧ (∀ n, o.outSizeProcessed = some n → n ≤ outSize) ∧
      ∀ i, outSize ≤ i → o.outStream i = 0 :=
  lzma_decode_contained (by decide) _

end UBoot.LibGeneric.LzmaSafety
