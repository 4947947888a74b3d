import UBoot.LibGeneric.LzmaCoding

namespace UBoot.LibGeneric.LzmaCoding

open Lib.RangeCoder LzmaDecode Tools.RangeEncoder Tools.LzmaEncoder

variable {b : Blocks} {k : ℕ} {n m : ℕ}

/-- The models of a tree lie behind one another. -/
def Row (k : ℕ) (models : ℕ → Ctx) (probs size : ℕ) : Prop :=
  ∀ i, 1 ≤ i → i < size → Valid k (models i) ∧ probs + i = place (models i)

section Trees

variable {models : ℕ → Ctx} {probs size : ℕ}

/-- The nodes below `m` are in the tree. -/
theorem node_below (size bit : ℕ) (hbit : bit ≤ 1) (h : (m + 1) * 2 ^ (n + 1) ≤ 2 * size) :
    m < size ∧ (2 * m + bit + 1) * 2 ^ n ≤ 2 * size := by
  have hpos := Nat.two_pow_pos n
  rw [Nat.pow_succ, Nat.mul_comm (2 ^ n) 2, ← Nat.mul_assoc] at h
  have hm : (m + 1) * 2 * 1 ≤ (m + 1) * 2 * 2 ^ n := Nat.mul_le_mul_left _ hpos
  exact ⟨by omega, Nat.le_trans (Nat.mul_le_mul_right _ (by omega)) h⟩

theorem node_above (m n bit : ℕ) : m * 2 ^ (n + 1) ≤ (2 * m + bit) * 2 ^ n := by
  rw [Nat.pow_succ, Nat.mul_comm (2 ^ n) 2, ← Nat.mul_assoc, Nat.mul_comm m 2]
  exact Nat.mul_le_mul_right _ (Nat.le_add_right _ _)

variable (hb : LzmaDecode.literal + lzmaLitSize * k ≤ b.numProbs) (hrow : Row k models probs size)
include hb hrow

/-- `CBitTreeEncoder::Encode` and the loop of `RangeDecoderBitTreeDecode` -/
theorem bitTreeLoop_agrees (symbol : ℕ) (hm : 1 ≤ m) (h : (m + 1) * 2 ^ n ≤ 2 * size) :
    Agrees b k (bitTreeEncode models symbol n m) (bitTreeLoop b probs n m) (m * 2 ^ n + symbol % 2 ^ n) := by
  induction n generalizing m with
  | zero => exact agrees_nil (fun _ ↦ rfl) fun d ↦ by simp [bitTreeLoop, Nat.mod_one]
  | succ n ih =>
    have hbit : symbol >>> n &&& 1 ≤ 1 := Nat.and_le_right
    obtain ⟨hsize, hbelow⟩ := node_below _ _ hbit h
    obtain ⟨hvalid, hplace⟩ := hrow m hm hsize
    have hrest := ih (by omega) hbelow
    rw [shiftRight_and_one, append_bit, ← shiftRight_and_one] at hrest
    refine ((encodeBit_agrees hb hvalid hplace hbit).seq hrest fun d d' _ he ↦ ?_).congr fun s ↦ ?_
    · rw [bitTreeLoop, he, Nat.two_mul]
      rfl
    · rw [bitTreeEncode, shiftLeft_one_or hbit]

/-- `RangeDecoderBitTreeDecode` -/
theorem bitTreeDecode_agrees {symbol : ℕ} (numLevels : ℕ) (hsize : size = 2 ^ numLevels)
    (hsymbol : symbol < 2 ^ numLevels) :
    Agrees b k (bitTreeEncode models symbol numLevels 1) (bitTreeDecode b probs numLevels) symbol := by
  refine (bitTreeLoop_agrees hb hrow symbol (Nat.le_refl 1) (by rw [hsize])).map fun d d' he ↦ ?_
  rw [bitTreeDecode, he, Nat.mod_eq_of_lt hsymbol, Nat.one_shiftLeft, Nat.one_mul]
  simp only [Option.bind_eq_bind, Option.bind_some, Nat.add_sub_cancel_left]
  rfl

/-- `ReverseBitTreeEncode` and the loop of `RangeDecoderReverseBitTreeDecode` -/
theorem reverseLoop_agrees {i read : ℕ} (symbol : ℕ) (hm : 1 ≤ m) (h : (m + 1) * 2 ^ n ≤ 2 * size)
    (hread : read < 2 ^ i) :
    Agrees b k (reverseBitTreeEncode models n m symbol) (reverseLoop b probs n i m read)
      (read + symbol % 2 ^ n * 2 ^ i) := by
  induction n generalizing m i symbol read with
  | zero => exact agrees_nil (fun _ ↦ rfl) fun d ↦ by simp [reverseLoop, Nat.mod_one]
  | succ n ih =>
    have hbit : symbol &&& 1 ≤ 1 := Nat.and_le_right
    obtain ⟨hsize, hbelow⟩ := node_below _ _ hbit h
    obtain ⟨hvalid, hplace⟩ := hrow m hm hsize
    have hor : read ||| (symbol &&& 1) <<< i = read + (symbol &&& 1) * 2 ^ i := by
      rw [Nat.or_comm, ← Nat.shiftLeft_add_eq_or_of_lt hread, Nat.shiftLeft_eq, Nat.add_comm]
    have hwide : read + (symbol &&& 1) * 2 ^ i < 2 ^ (i + 1) := by
      have hle : (symbol &&& 1) * 2 ^ i ≤ 1 * 2 ^ i := Nat.mul_le_mul_right _ hbit
      rw [Nat.pow_succ]
      omega
    have hrest := ih (symbol >>> 1) (by omega) hbelow hwide
    have hvalue : read + (symbol &&& 1) * 2 ^ i + symbol >>> 1 % 2 ^ n * 2 ^ (i + 1) =
        read + symbol % 2 ^ (n + 1) * 2 ^ i := by
      rw [Nat.and_one_is_mod, Nat.shiftRight_eq_div_pow, Nat.pow_one, Nat.pow_succ', Nat.pow_succ',
        Nat.mod_mul]
      ring
    rw [hvalue] at hrest
    refine ((encodeBit_agrees hb hvalid hplace hbit).seq hrest fun d d' _ he ↦ ?_).congr fun s ↦ ?_
    · rw [reverseLoop, he, ← hor, Nat.two_mul]
      rfl
    · rw [reverseBitTreeEncode, shiftLeft_one_or hbit]

end Trees

section Literals

theorem ofNat_symbol (symbol : UInt8) : UInt8.ofNat (1 * 2 ^ 8 + symbol.toNat % 2 ^ 8) = symbol := by
  have := symbol.toNat_lt
  apply UInt8.toNat_inj.mp
  rw [UInt8.toNat_ofNat']
  omega

/-- The bit of the byte at the distance that is looked at is the first one of what the decoder has
shifted. -/
theorem matchBit_eq {x y : UInt8} (hn : n < 8) (h : y.toNat = x.toNat * 2 ^ (7 - n) % 256) :
    y.toNat >>> 7 &&& 1 = x.toNat >>> n &&& 1 ∧ (y <<< 1).toNat = x.toNat * 2 ^ (8 - n) % 256 := by
  rw [shiftRight_and_one, shiftRight_and_one, UInt8.toNat_shiftLeft, h]
  interval_cases n <;> simp [Nat.shiftLeft_eq] <;> omega

variable {sub : ℕ} (hsub : sub < k)
include hsub

theorem literal_row : Row k (.literal sub) (LzmaDecode.literal + lzmaLitSize * sub) 0x300 :=
  fun _ _ hlt ↦ ⟨⟨hsub, hlt⟩, rfl⟩

variable (hb : LzmaDecode.literal + lzmaLitSize * k ≤ b.numProbs)
include hb

/-- The loop that a literal ends with. Its condition tells how many bits are to come. -/
theorem literalLoop_agrees (symbol : ℕ) (hm : 0x100 ≤ m * 2 ^ n) (h : (m + 1) * 2 ^ n ≤ 0x200) :
    Agrees b k (bitTreeEncode (.literal sub) symbol n m)
      (literalLoop b (LzmaDecode.literal + lzmaLitSize * sub) n m) (m * 2 ^ n + symbol % 2 ^ n) := by
  induction n generalizing m with
  | zero =>
    refine agrees_nil (fun _ ↦ rfl) fun d ↦ ?_
    rw [literalLoop, if_neg (by omega), Nat.pow_zero, Nat.mod_one, Nat.mul_one, Nat.add_zero]
  | succ n ih =>
    have hbit : symbol >>> n &&& 1 ≤ 1 := Nat.and_le_right
    obtain ⟨hsize, hbelow⟩ := node_below 0x100 _ hbit h
    have hpos : 1 ≤ m := Nat.pos_of_ne_zero fun hzero ↦ by
      rw [hzero, Nat.zero_mul] at hm
      omega
    obtain ⟨hvalid, hplace⟩ := literal_row hsub m hpos (by omega)
    have hrest := ih (Nat.le_trans hm (node_above m n _)) hbelow
    rw [shiftRight_and_one, append_bit, ← shiftRight_and_one] at hrest
    refine ((encodeBit_agrees hb hvalid hplace hbit).seq hrest fun d d' _ he ↦ ?_).congr fun s ↦ ?_
    · rw [literalLoop, if_pos hsize, he, ← shiftLeft_one_or hbit, Nat.shiftLeft_eq, Nat.pow_one,
        Nat.mul_two]
      rfl
    · rw [bitTreeEncode, shiftLeft_one_or hbit]

/-- `CLiteralEncoder2::Encode` and `LzmaLiteralDecode` -/
theorem literal_agrees (symbol : UInt8) :
    Agrees b k (literalEncode sub symbol)
      (lzmaLiteralDecode b (LzmaDecode.literal + lzmaLitSize * sub)) symbol := by
  refine (literalLoop_agrees hsub hb symbol.toNat (by decide) (by decide)).map fun d d' he ↦ ?_
  rw [lzmaLiteralDecode, he]
  exact congrArg (fun x ↦ some (x, d')) (ofNat_symbol symbol)

/-- A round of `CLiteralEncoder2::EncodeMatched` and of the outer loop of
`LzmaLiteralDecodeMatch`. -/
theorem matchLoop_step {x y symbol : UInt8} (hn : n < 8) (hy : y.toNat = x.toNat * 2 ^ (7 - n) % 256)
    (hm : 0x100 ≤ m * 2 ^ (n + 1)) (h : (m + 1) * 2 ^ (n + 1) ≤ 0x200)
    (hrest : Agrees b k
      (encodeMatchedLoop sub x symbol n (2 * m + (symbol.toNat >>> n &&& 1)))
      (fun d ↦ if 2 * m + (symbol.toNat >>> n &&& 1) < 0x100 then
          matchLoop b (LzmaDecode.literal + lzmaLitSize * sub) n (y <<< 1)
            (2 * m + (symbol.toNat >>> n &&& 1)) d
        else some (2 * m + (symbol.toNat >>> n &&& 1), d))
      (m * 2 ^ (n + 1) + symbol.toNat % 2 ^ (n + 1))) :
    Agrees b k (encodeMatchedLoop sub x symbol (n + 1) m)
      (matchLoop b (LzmaDecode.literal + lzmaLitSize * sub) (n + 1) y m)
      (m * 2 ^ (n + 1) + symbol.toNat % 2 ^ (n + 1)) := by
  have hbit : symbol.toNat >>> n &&& 1 ≤ 1 := Nat.and_le_right
  have hmatch : x.toNat >>> n &&& 1 ≤ 1 := Nat.and_le_right
  obtain ⟨hsize, hbelow⟩ := node_below 0x100 _ hbit h
  have hindex : 0x100 + (x.toNat >>> n &&& 1) <<< 8 + m < 0x300 := by
    rw [Nat.shiftLeft_eq]
    omega
  have htree := literalLoop_agrees hsub hb symbol.toNat (Nat.le_trans hm (node_above m n _)) hbelow
  rw [shiftRight_and_one, append_bit, ← shiftRight_and_one] at htree
  have hfirst := encodeBit_agrees hb
    (c := .literal sub (0x100 + (x.toNat >>> n &&& 1) <<< 8 + m)) ⟨hsub, hindex⟩ rfl hbit
  by_cases hne : x.toNat >>> n &&& 1 = symbol.toNat >>> n &&& 1
  · refine (hfirst.seq hrest fun d d' _ he ↦ ?_).congr fun s ↦ ?_
    · rw [matchLoop]
      simp only [(matchBit_eq hn hy).1, Nat.add_assoc, place] at he ⊢
      rw [he]
      simp only [Option.bind_eq_bind, Option.bind_some, shiftLeft_one_or hbit]
      rw [if_neg (not_not.mpr hne)]
      rfl
    · rw [encodeMatchedLoop, if_neg (not_not.mpr hne), shiftLeft_one_or hbit]
  · refine (hfirst.seq htree fun d d' _ he ↦ ?_).congr fun s ↦ ?_
    · rw [matchLoop]
      simp only [(matchBit_eq hn hy).1, Nat.add_assoc, place] at he ⊢
      rw [he]
      simp only [Option.bind_eq_bind, Option.bind_some, shiftLeft_one_or hbit]
      rw [if_pos hne]
    · rw [encodeMatchedLoop, if_pos hne, shiftLeft_one_or hbit]

theorem matchLoop_agrees {x y symbol : UInt8} (hn : n < 8) (hy : y.toNat = x.toNat * 2 ^ (7 - n) % 256)
    (hm : 0x100 ≤ m * 2 ^ (n + 1)) (h : (m + 1) * 2 ^ (n + 1) ≤ 0x200) :
    Agrees b k (encodeMatchedLoop sub x symbol (n + 1) m)
      (matchLoop b (LzmaDecode.literal + lzmaLitSize * sub) (n + 1) y m)
      (m * 2 ^ (n + 1) + symbol.toNat % 2 ^ (n + 1)) := by
  induction n generalizing m y with
  | zero =>
    refine matchLoop_step hsub hb hn hy hm h (agrees_nil (fun _ ↦ rfl) fun d ↦ ?_)
    have hvalue := append_bit m symbol.toNat 0
    rw [Nat.pow_zero, Nat.mod_one, Nat.mul_one, Nat.add_zero, Nat.div_one] at hvalue
    rw [← hvalue, Nat.shiftRight_zero, Nat.and_one_is_mod, if_neg (by omega)]
  | succ n ih =>
    have hbit : symbol.toNat >>> (n + 1) &&& 1 ≤ 1 := Nat.and_le_right
    obtain ⟨hsize, hbelow⟩ := node_below 0x100 _ hbit h
    obtain ⟨hnode, -⟩ := node_below 0x100 0 (Nat.zero_le 1) hbelow
    have hy' := (matchBit_eq hn hy).2
    rw [show 8 - (n + 1) = 7 - n by omega] at hy'
    have hrest := ih (by omega) hy' (Nat.le_trans hm (node_above m (n + 1) _)) hbelow
    rw [shiftRight_and_one, append_bit, ← shiftRight_and_one] at hrest
    exact matchLoop_step hsub hb hn hy hm h (hrest.map fun d d' he ↦ (if_pos hnode).trans he)

theorem encodeMatched_agrees (x symbol : UInt8) :
    Agrees b k (encodeMatched sub x symbol)
      (lzmaLiteralDecodeMatch b (LzmaDecode.literal + lzmaLitSize * sub) x) symbol := by
  have hx : x.toNat = x.toNat * 2 ^ (7 - 7) % 256 := by
    have := x.toNat_lt
    omega
  refine (matchLoop_agrees hsub hb (by decide) hx (by decide) (by decide)).map fun d d' he ↦ ?_
  rw [lzmaLiteralDecodeMatch, he]
  exact congrArg (fun x ↦ some (x, d')) (ofNat_symbol symbol)

end Literals

section Lengths

variable (hb : LzmaDecode.literal + lzmaLitSize * k ≤ b.numProbs)
include hb

/-- `NLength::CEncoder::Encode` and `LzmaLenDecode` -/
theorem lenEncode_agrees (rep : Bool) {symbol posState : ℕ} (hsymbol : symbol < 272)
    (hpos : posState < 16) :
    Agrees b k (lenEncode rep symbol posState) (lzmaLenDecode b (lenBase rep) posState) symbol := by
  have hchoice {bit : ℕ} (hbit : bit ≤ 1) :=
    encodeBit_agrees hb (c := .choice rep) (i := lenBase rep + lenChoice) trivial rfl hbit
  have hchoice2 {bit : ℕ} (hbit : bit ≤ 1) :=
    encodeBit_agrees hb (c := .choice2 rep) (i := lenBase rep + lenChoice2) trivial rfl hbit
  have hlow : Row k (.lowCoder rep posState) (lenBase rep + lenLow + posState <<< kLenNumLowBits) 8 :=
    fun _ _ hlt ↦ ⟨⟨hpos, hlt⟩, rfl⟩
  have hmid : Row k (.midCoder rep posState) (lenBase rep + lenMid + posState <<< kLenNumMidBits) 8 :=
    fun _ _ hlt ↦ ⟨⟨hpos, hlt⟩, rfl⟩
  have hhigh : Row k (.highCoder rep) (lenBase rep + lenHigh) 256 := fun _ _ hlt ↦ ⟨hlt, rfl⟩
  rcases Nat.lt_or_ge symbol 8 with hsmall | hge
  · have htree := bitTreeDecode_agrees hb hlow 3 rfl hsmall
    exact ((hchoice (Nat.zero_le 1)).bind htree).congr fun s ↦ if_pos hsmall
  · rcases Nat.lt_or_ge symbol 16 with hmiddle | hlarge
    · have htree := bitTreeDecode_agrees hb hmid 3 rfl (show symbol - 8 < 2 ^ 3 by omega)
      have hlen := htree.returns (kLenNumLowSymbols + ·)
      rw [show kLenNumLowSymbols + (symbol - 8) = symbol from Nat.add_sub_cancel' hge] at hlen
      exact ((hchoice (Nat.le_refl 1)).bind ((hchoice2 (Nat.zero_le 1)).bind hlen)).congr fun s ↦ by
        rw [lenEncode, if_neg (by omega), if_pos hmiddle]
    · have htree := bitTreeDecode_agrees hb hhigh 8 rfl (show symbol - 16 < 2 ^ 8 by omega)
      have hlen := htree.returns (kLenNumLowSymbols + kLenNumMidSymbols + ·)
      rw [show kLenNumLowSymbols + kLenNumMidSymbols + (symbol - 16) = symbol from
        Nat.add_sub_cancel' hlarge] at hlen
      exact ((hchoice (Nat.le_refl 1)).bind ((hchoice2 (Nat.le_refl 1)).bind hlen)).congr fun s ↦ by
        rw [lenEncode, if_neg (by omega), if_neg (by omega)]

end Lengths

section Distances

/-- The first distance of a slot. -/
def slotBase (slot : ℕ) : ℕ := (2 ||| (slot &&& 1)) <<< (slot >>> 1 - 1)

theorem slotBase_eq (slot : ℕ) : slotBase slot = (2 + slot % 2) * 2 ^ (slot / 2 - 1) := by
  rw [slotBase, Nat.shiftLeft_eq, Nat.and_one_is_mod, Nat.shiftRight_eq_div_pow, Nat.pow_one]
  rcases Nat.mod_two_eq_zero_or_one slot with h | h <;> rw [h] <;> rfl

/-- The slots follow one another. -/
theorem slotBase_succ {slot : ℕ} (h : 2 ≤ slot) :
    slotBase (slot + 1) = slotBase slot + 2 ^ (slot / 2 - 1) := by
  rw [slotBase_eq, slotBase_eq]
  rcases Nat.mod_two_eq_zero_or_one slot with heven | hodd
  · rw [show (slot + 1) / 2 = slot / 2 by omega, show (slot + 1) % 2 = 1 by omega, heven]
    ring
  · rw [show (slot + 1) / 2 - 1 = slot / 2 - 1 + 1 by omega, show (slot + 1) % 2 = 0 by omega, hodd,
      Nat.pow_succ]
    ring

/-- A slot is found between the first distances of it and of the next one. -/
theorem getD_slots (n : ℕ) {slot i : ℕ} (hslot : 2 ≤ slot) (hi : slotBase slot + i < slotBase (slot + n)) :
    ∃ s, ((List.range' slot n).flatMap fun s ↦ List.replicate (1 <<< (s >>> 1 - 1)) s).getD i 0 = s ∧
      slot ≤ s ∧ slotBase s ≤ slotBase slot + i ∧ slotBase slot + i < slotBase (s + 1) := by
  induction n generalizing slot i with
  | zero => exact absurd hi (by simp)
  | succ n ih =>
    have hnext := slotBase_succ hslot
    have hwidth : 1 <<< (slot >>> 1 - 1) = 2 ^ (slot / 2 - 1) := by
      rw [Nat.one_shiftLeft, Nat.shiftRight_eq_div_pow, Nat.pow_one]
    rw [List.range'_succ, List.flatMap_cons, hwidth]
    rcases Nat.lt_or_ge i (2 ^ (slot / 2 - 1)) with hlt | hge
    · refine ⟨slot, ?_, Nat.le_refl _, by omega, by omega⟩
      rw [List.getD_append _ _ _ _ (by rwa [List.length_replicate]), List.getD_replicate _ hlt]
    · have hrest : slotBase (slot + 1) + (i - 2 ^ (slot / 2 - 1)) < slotBase (slot + 1 + n) := by
        rw [hnext, show slot + 1 + n = slot + (n + 1) by omega]
        omega
      obtain ⟨s, hs, hle, hbase, hend⟩ := ih (by omega) hrest
      refine ⟨s, ?_, by omega, by omega, by omega⟩
      rw [List.getD_append_right _ _ _ _ (by rwa [List.length_replicate]), List.length_replicate, hs]

theorem gFastPos_getD {pos : ℕ} (h : 2 ≤ pos) (hlt : pos < 1024) :
    ∃ s, gFastPos.getD pos 0 = s ∧ 2 ≤ s ∧ slotBase s ≤ pos ∧ pos < slotBase (s + 1) := by
  obtain ⟨i, rfl⟩ := Nat.exists_eq_add_of_le h
  obtain ⟨s, hs, hle, hbase, hnext⟩ := getD_slots 18 (Nat.le_refl 2) (i := i) hlt
  refine ⟨s, ?_, hle, hbase, hnext⟩
  rw [gFastPos, Nat.add_comm]
  exact hs

theorem slotBase_add {slot : ℕ} (h : 2 ≤ slot) (j : ℕ) : slotBase (slot + 2 * j) = slotBase slot * 2 ^ j := by
  rw [slotBase_eq, slotBase_eq, show (slot + 2 * j) % 2 = slot % 2 by omega,
    show (slot + 2 * j) / 2 - 1 = slot / 2 - 1 + j by omega, Nat.pow_add, Nat.mul_assoc]

/-- The table is also used for the upper bits of a distance. -/
theorem gFastPos_shift {pos : ℕ} (j : ℕ) (h : 2 ≤ pos >>> j) (hlt : pos >>> j < 1024) :
    ∃ s, gFastPos.getD (pos >>> j) 0 + 2 * j = s ∧ 2 ≤ s ∧ slotBase s ≤ pos ∧ pos < slotBase (s + 1) := by
  obtain ⟨s, hs, hle, hbase, hnext⟩ := gFastPos_getD h hlt
  rw [Nat.shiftRight_eq_div_pow] at hbase hnext
  refine ⟨s + 2 * j, by rw [hs], by omega, ?_, ?_⟩
  · rw [slotBase_add hle]
    exact Nat.le_trans (Nat.mul_le_mul_right _ hbase) (Nat.div_mul_le_self _ _)
  · rw [show s + 2 * j + 1 = s + 1 + 2 * j by omega, slotBase_add (by omega)]
    exact (Nat.div_lt_iff_lt_mul (Nat.two_pow_pos j)).mp hnext

/-- `GetPosSlot` -/
theorem getPosSlot_spec {pos : ℕ} (h : 2 ≤ pos) (hlt : pos < 2 ^ 28) :
    2 ≤ getPosSlot pos ∧ slotBase (getPosSlot pos) ≤ pos ∧ pos < slotBase (getPosSlot pos + 1) := by
  rw [getPosSlot]
  split_ifs with hsmall hmiddle
  · obtain ⟨s, hs, hle, hbase, hnext⟩ := gFastPos_shift 0 h hsmall
    rw [show gFastPos.getD pos 0 = s from hs]
    exact ⟨hle, hbase, hnext⟩
  · have hle9 : 2 ≤ pos >>> 9 ∧ pos >>> 9 < 1024 := by
      rw [Nat.shiftRight_eq_div_pow]
      omega
    obtain ⟨s, hs, hle, hbase, hnext⟩ := gFastPos_shift 9 hle9.1 hle9.2
    rw [show gFastPos.getD (pos >>> 9) 0 + 18 = s from hs]
    exact ⟨hle, hbase, hnext⟩
  · have hle18 : 2 ≤ pos >>> 18 ∧ pos >>> 18 < 1024 := by
      rw [Nat.shiftRight_eq_div_pow]
      omega
    obtain ⟨s, hs, hle, hbase, hnext⟩ := gFastPos_shift 18 hle18.1 hle18.2
    rw [show gFastPos.getD (pos >>> 18) 0 + 36 = s from hs]
    exact ⟨hle, hbase, hnext⟩

theorem getPosSlot_small {pos : ℕ} (h : pos < 4) : getPosSlot pos = pos := by
  interval_cases pos <;> rfl

theorem slotBase_mono {slot slot' : ℕ} (h : 2 ≤ slot) (hle : slot ≤ slot') : slotBase slot ≤ slotBase slot' := by
  induction slot', hle using Nat.le_induction with
  | base => exact Nat.le_refl _
  | succ n hn ih =>
    rw [slotBase_succ (by omega)]
    exact Nat.le_trans ih (Nat.le_add_right _ _)

/-- A distance from 4 on has its slot and its place within the slot. -/
theorem getPosSlot_large {pos : ℕ} (h : 4 ≤ pos) (hlt : pos < 2 ^ 28) :
    4 ≤ getPosSlot pos ∧ getPosSlot pos < 56 ∧ slotBase (getPosSlot pos) ≤ pos ∧
      pos - slotBase (getPosSlot pos) < 2 ^ (getPosSlot pos >>> 1 - 1) := by
  obtain ⟨hle, hbase, hnext⟩ := getPosSlot_spec (by omega) hlt
  have hfirst : 4 ≤ getPosSlot pos := by
    by_contra hless
    have hmono : _ ≤ slotBase 4 := slotBase_mono (by omega : 2 ≤ getPosSlot pos + 1) (by omega)
    rw [show slotBase 4 = 4 from rfl] at hmono
    omega
  have hlast : getPosSlot pos < 56 := by
    by_contra hmore
    have hmono : slotBase 56 ≤ _ := slotBase_mono (by decide) (Nat.le_of_not_lt hmore)
    rw [show slotBase 56 = 2 ^ 28 from rfl] at hmono
    omega
  rw [slotBase_succ hle] at hnext
  rw [Nat.shiftRight_eq_div_pow, Nat.pow_one]
  exact ⟨hfirst, hlast, hbase, by omega⟩

/-- The models of the footer bits of a slot. -/
theorem footer_row {slot : ℕ} (h : 4 ≤ slot) (hlt : slot < 14) :
    Row k (fun i ↦ .posEncoders (slotBase slot + i - slot - 1)) (specPos + slotBase slot - slot - 1)
      (2 ^ (slot >>> 1 - 1)) := by
  intro i hi hlast
  have hfits : slot ≤ slotBase slot ∧ slotBase slot + 2 ^ (slot >>> 1 - 1) ≤ slot + 115 := by
    interval_cases slot <;> decide
  refine ⟨show _ < 114 by omega, ?_⟩
  rw [place, specPos]
  omega

variable (hb : LzmaDecode.literal + lzmaLitSize * k ≤ b.numProbs)
include hb

/-- What is written behind the slot. -/
theorem footer_agrees {slot low : ℕ} (h : 4 ≤ slot) (hlt : slot < 14) (hlow : low < 2 ^ (slot >>> 1 - 1)) :
    Agrees b k
      (reverseBitTreeEncode (fun i ↦ .posEncoders (slotBase slot + i - slot - 1)) (slot >>> 1 - 1) 1 low)
      (reverseBitTreeDecode b (specPos + slotBase slot - slot - 1) (slot >>> 1 - 1)) low := by
  have htree := reverseLoop_agrees hb (footer_row h hlt) (i := 0) low (Nat.le_refl 1)
    (Nat.le_refl _) (Nat.one_pos : 0 < 2 ^ 0)
  rwa [Nat.mod_eq_of_lt hlow, Nat.pow_zero, Nat.mul_one, Nat.zero_add] at htree

theorem alignFooter_agrees (low : ℕ) :
    Agrees b k (reverseBitTreeEncode .posAlignEncoder 4 1 (low &&& 15))
      (reverseBitTreeDecode b align kNumAlignBits) (low % 16) := by
  have hrow : Row k .posAlignEncoder align 16 := fun _ _ hlt ↦ ⟨hlt, rfl⟩
  have htree := reverseLoop_agrees hb hrow (n := 4) (i := 0) (low &&& 15)
    (Nat.le_refl 1) (Nat.le_refl _) (Nat.one_pos : 0 < 2 ^ 0)
  rw [Nat.pow_zero, Nat.mul_one, Nat.zero_add, Nat.and_two_pow_sub_one_eq_mod low 4, Nat.mod_mod] at htree
  rw [Nat.and_two_pow_sub_one_eq_mod low 4]
  exact htree

/-- The same for the slots that have direct bits. -/
theorem directFooter_agrees {slot low : ℕ} (hend : slot < 56) (hlow : low < 2 ^ (slot >>> 1 - 1))
    (hlarge : 14 ≤ slot) (hroom : slotBase slot + low < 2 ^ 32) :
    Agrees b k
      (fun s ↦ reverseBitTreeEncode .posAlignEncoder 4 1 (low &&& 15)
        (encodeDirectBits (low >>> 4) (slot >>> 1 - 1 - 4) s))
      (fun d ↦ do
        let (high, rd) ← directBits b (slot >>> 1 - 1 - 4) 0 d.rd
        let (low, d) ← reverseBitTreeDecode b align kNumAlignBits { d with rd := rd }
        return ((slotBase slot + high <<< 4 % 2 ^ 32 + low) % 2 ^ 32, d))
      (slotBase slot + low) := by
  have hbits : slot >>> 1 - 1 = slot >>> 1 - 1 - 4 + 4 := by
    rw [Nat.shiftRight_eq_div_pow]
    omega
  have hhigh : low >>> 4 < 2 ^ (slot >>> 1 - 1 - 4) := by
    rw [hbits, Nat.pow_add] at hlow
    rw [Nat.shiftRight_eq_div_pow]
    exact Nat.div_lt_of_lt_mul (by rwa [Nat.mul_comm])
  have hwidth : (0 + 1) * 2 ^ (slot >>> 1 - 1 - 4) ≤ 2 ^ 32 := by
    rw [Nat.zero_add, Nat.one_mul, Nat.shiftRight_eq_div_pow]
    exact Nat.pow_le_pow_right (by decide) (by omega)
  have hdirect := encodeDirectBits_agrees b k (low >>> 4) hwidth
  rw [Nat.mod_eq_of_lt hhigh, Nat.zero_mul, Nat.zero_add] at hdirect
  have hfooter := (alignFooter_agrees hb low).returns fun l ↦
    (slotBase slot + (low >>> 4) <<< 4 % 2 ^ 32 + l) % 2 ^ 32
  have hvalue : (slotBase slot + (low >>> 4) <<< 4 % 2 ^ 32 + low % 16) % 2 ^ 32 = slotBase slot + low := by
    rw [Nat.shiftLeft_eq, Nat.shiftRight_eq_div_pow]
    omega
  rw [hvalue] at hfooter
  refine hdirect.seq hfooter fun d d' _ he ↦ ?_
  obtain ⟨⟨high, rd⟩, hr, heq⟩ := Option.map_eq_some_iff.mp he
  obtain ⟨rfl, rfl⟩ := Prod.mk.inj heq
  rw [hr]
  rfl

omit hb in
theorem distance_of_slot {len slot : ℕ} {d d' : Decoder}
    (h : bitTreeDecode b (posSlot + getLenToPosState len <<< kNumPosSlotBits) 6 d = some (slot, d')) :
    distance b (len - 2) d =
      if 4 ≤ slot then
        if slot < 14 then do
          let (low, d) ←
            reverseBitTreeDecode b (specPos + slotBase slot % 2 ^ 32 - slot - 1) (slot >>> 1 - 1) d'
          return ((slotBase slot % 2 ^ 32 + low) % 2 ^ 32, d)
        else do
          let (high, rd) ← directBits b (slot >>> 1 - 1 - 4) 0 d'.rd
          let (low, d) ← reverseBitTreeDecode b align kNumAlignBits { d' with rd := rd }
          return ((slotBase slot % 2 ^ 32 + high <<< 4 % 2 ^ 32 + low) % 2 ^ 32, d)
      else some (slot, d') := by
  have hstate : (if len - 2 < kNumLenToPosStates then len - 2 else kNumLenToPosStates - 1) =
      getLenToPosState len := rfl
  rw [distance, hstate, kNumPosSlotBits]
  rw [kNumPosSlotBits] at h
  simp only [h, Option.bind_eq_bind, Option.bind_some]
  rfl

/-- What is written for a new distance is what `distance` reads. -/
theorem encodeDistance_agrees {pos : ℕ} (len : ℕ) (hpos : pos < 2 ^ 28) :
    Agrees b k (encodeDistance pos len) (distance b (len - 2)) pos := by
  have hslotRow : Row k (.posSlotEncoder (getLenToPosState len))
      (posSlot + getLenToPosState len <<< kNumPosSlotBits) 64 := fun _ _ hlt ↦ ⟨⟨by
    rw [getLenToPosState]
    split_ifs <;> omega, hlt⟩, rfl⟩
  have hslot (h : getPosSlot pos < 2 ^ 6) := bitTreeDecode_agrees hb hslotRow 6 rfl h
  rcases Nat.lt_or_ge pos 4 with hsmall | hge
  · have heq := getPosSlot_small hsmall
    have hnil : Agrees b k id (fun d ↦ some (pos, d)) pos := agrees_nil (fun _ ↦ rfl) fun _ ↦ rfl
    refine ((hslot (by omega)).seq hnil fun d d' _ he ↦ ?_).congr fun s ↦ ?_
    · rw [distance_of_slot he, if_neg (by omega), heq]
    · rw [encodeDistance, if_neg (by omega)]
      rfl
  · obtain ⟨hle, hend, hbase, hlow⟩ := getPosSlot_large hge hpos
    have hroom : slotBase (getPosSlot pos) < 2 ^ 32 := by omega
    have hadd : slotBase (getPosSlot pos) + (pos - slotBase (getPosSlot pos)) = pos := Nat.add_sub_cancel' hbase
    rcases Nat.lt_or_ge (getPosSlot pos) 14 with hspec | halign
    · have hfooter := (footer_agrees hb hle hspec hlow).returns fun low ↦
        (slotBase (getPosSlot pos) + low) % 2 ^ 32
      rw [hadd, Nat.mod_eq_of_lt (by omega)] at hfooter
      refine ((hslot (by omega)).seq hfooter fun d d' _ he ↦ ?_).congr fun s ↦ ?_
      · rw [distance_of_slot he, if_pos hle, if_pos hspec, Nat.mod_eq_of_lt hroom]
      · rw [encodeDistance, if_pos hle, if_pos hspec]
        rfl
    · have hrest := directFooter_agrees hb hend hlow halign (by omega)
      rw [hadd] at hrest
      refine ((hslot (by omega)).seq hrest fun d d' _ he ↦ ?_).congr fun s ↦ ?_
      · rw [distance_of_slot he, if_pos hle, if_neg (by omega), Nat.mod_eq_of_lt hroom]
      · rw [encodeDistance, if_pos hle, if_neg (by omega)]
        rfl

end Distances

end UBoot.LibGeneric.LzmaCoding
