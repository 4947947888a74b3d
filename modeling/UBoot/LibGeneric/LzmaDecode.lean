import Mathlib.Algebra.Group.Nat.Defs
import Mathlib.Logic.Function.Basic
import UBoot.Lib.Memory

namespace UBoot.LibGeneric.LzmaDecode

open Lib.Memory

def kTopValue : ℕ := 16777216

/-- `CRangeDecoder`; `buffer` is the distance of `Buffer` from the start of the stream. -/
structure RangeDecoder where
  buffer : ℕ
  range : ℕ
  code : ℕ
  extraBytes : ℕ

/-- The models that are set up in `buffer`, the input and the room at `outStream`. An access outside
of one of these is `none`. -/
structure Blocks where
  numProbs : ℕ
  inStream : List UInt8
  outSize : ℕ

/-- The decoder with its `CProb`s. -/
structure Decoder where
  p : ℕ → ℕ
  rd : RangeDecoder

/-- `RangeDecoderReadByte` -/
def readByte (b : Blocks) (rd : RangeDecoder) : Option (UInt8 × RangeDecoder) := do
  if rd.buffer = b.inStream.length then return (0xFF, { rd with extraBytes := 1 })
  else
    let x ← b.inStream[rd.buffer]?
    return (x, { rd with buffer := rd.buffer + 1 })

/-- `RC_NORMALIZE`, also where it is written out. -/
def normalize (b : Blocks) (rd : RangeDecoder) : Option RangeDecoder := do
  if rd.range < kTopValue then
    let (x, rd) ← readByte b rd
    return { rd with
      code := (rd.code <<< 8 ||| x.toNat) % 2 ^ 32
      range := rd.range <<< 8 % 2 ^ 32 }
  else return rd

def initLoop (b : Blocks) : ℕ → RangeDecoder → Option RangeDecoder
  | 0, rd => some rd
  | n + 1, rd => do
    let (x, rd) ← readByte b rd
    initLoop b n { rd with code := (rd.code <<< 8 ||| x.toNat) % 2 ^ 32 }

/-- `RangeDecoderInit` -/
def rangeDecoderInit (b : Blocks) : Option RangeDecoder :=
  initLoop b 5 { buffer := 0, range := 0xFFFFFFFF, code := 0, extraBytes := 0 }

/-- `RangeDecoderDecodeDirectBits`, with `i` rounds to go. -/
def directBits (b : Blocks) : ℕ → ℕ → RangeDecoder → Option (ℕ × RangeDecoder)
  | 0, result, rd => some (result, rd)
  | i + 1, result, rd => do
    let range := rd.range >>> 1
    let result := result <<< 1 % 2 ^ 32
    if rd.code ≥ range then
      let rd ← normalize b { rd with range := range, code := rd.code - range }
      directBits b i (result ||| 1) rd
    else
      let rd ← normalize b { rd with range := range }
      directBits b i result rd

/-- `RangeDecoderBitDecode` of the `i`-th `CProb`. -/
def bitDecode (b : Blocks) (i : ℕ) (d : Decoder) : Option (ℕ × Decoder) := do
  if i < b.numProbs then
    let prob := d.p i
    let bound := (d.rd.range >>> 11) * prob % 2 ^ 32
    if d.rd.code < bound then
      let rd ← normalize b { d.rd with range := bound }
      return (0, ⟨Function.update d.p i (prob + (2048 - prob) >>> 5), rd⟩)
    else
      let rd ← normalize b { d.rd with range := d.rd.range - bound, code := d.rd.code - bound }
      return (1, ⟨Function.update d.p i (prob - prob >>> 5), rd⟩)
  else none

def bitTreeLoop (b : Blocks) (probs : ℕ) : ℕ → ℕ → Decoder → Option (ℕ × Decoder)
  | 0, mi, d => some (mi, d)
  | i + 1, mi, d => do
    let (bit, d) ← bitDecode b (probs + mi) d
    bitTreeLoop b probs i (mi + mi + bit) d

/-- `RangeDecoderBitTreeDecode` -/
def bitTreeDecode (b : Blocks) (probs numLevels : ℕ) (d : Decoder) : Option (ℕ × Decoder) := do
  let (mi, d) ← bitTreeLoop b probs numLevels 1 d
  return (mi - 1 <<< numLevels, d)

/-- The loop of `RangeDecoderReverseBitTreeDecode`, from bit `i` on, with `n` rounds to go. -/
def reverseLoop (b : Blocks) (probs : ℕ) : ℕ → ℕ → ℕ → ℕ → Decoder → Option (ℕ × Decoder)
  | 0, _, _, symbol, d => some (symbol, d)
  | n + 1, i, mi, symbol, d => do
    let (bit, d) ← bitDecode b (probs + mi) d
    reverseLoop b probs n (i + 1) (mi + mi + bit) (symbol ||| bit <<< i) d

/-- `RangeDecoderReverseBitTreeDecode` -/
def reverseBitTreeDecode (b : Blocks) (probs numLevels : ℕ) (d : Decoder) : Option (ℕ × Decoder) :=
  reverseLoop b probs numLevels 0 1 0 d

/-- `while (symbol < 0x100)`. The symbol grows by a bit in every round; `n` rounds are allowed. -/
def literalLoop (b : Blocks) (probs : ℕ) : ℕ → ℕ → Decoder → Option (ℕ × Decoder)
  | 0, symbol, d => if symbol < 0x100 then none else some (symbol, d)
  | n + 1, symbol, d =>
    if symbol < 0x100 then do
      let (bit, d) ← bitDecode b (probs + symbol) d
      literalLoop b probs n (symbol + symbol ||| bit) d
    else some (symbol, d)

/-- `LzmaLiteralDecode`; its loop is always entered. -/
def lzmaLiteralDecode (b : Blocks) (probs : ℕ) (d : Decoder) : Option (UInt8 × Decoder) := do
  let (symbol, d) ← literalLoop b probs 8 1 d
  return (UInt8.ofNat symbol, d)

/-- The outer loop of `LzmaLiteralDecodeMatch`; it is left by the `break` behind the inner one. -/
def matchLoop (b : Blocks) (probs : ℕ) : ℕ → UInt8 → ℕ → Decoder → Option (ℕ × Decoder)
  | 0, _, _, _ => none
  | n + 1, matchByte, symbol, d => do
    let matchBit := (matchByte.toNat >>> 7) &&& 1
    let matchByte := matchByte <<< 1
    let (bit, d) ← bitDecode b (probs + 0x100 + matchBit <<< 8 + symbol) d
    let symbol := symbol <<< 1 ||| bit
    if matchBit ≠ bit then literalLoop b probs n symbol d
    else if symbol < 0x100 then matchLoop b probs n matchByte symbol d
    else return (symbol, d)

/-- `LzmaLiteralDecodeMatch` -/
def lzmaLiteralDecodeMatch (b : Blocks) (probs : ℕ) (matchByte : UInt8) (d : Decoder) :
    Option (UInt8 × Decoder) := do
  let (symbol, d) ← matchLoop b probs 8 matchByte 1 d
  return (UInt8.ofNat symbol, d)

def kNumPosBitsMax : ℕ := 4
def kLenNumLowBits : ℕ := 3
def kLenNumLowSymbols : ℕ := 8
def kLenNumMidBits : ℕ := 3
def kLenNumMidSymbols : ℕ := 8
def kLenNumHighBits : ℕ := 8

def lenChoice : ℕ := 0
def lenChoice2 : ℕ := 1
def lenLow : ℕ := 2
def lenMid : ℕ := 130
def lenHigh : ℕ := 258

/-- `LzmaLenDecode`, for the coder that begins at `p`. -/
def lzmaLenDecode (b : Blocks) (p posState : ℕ) (d : Decoder) : Option (ℕ × Decoder) := do
  let (choice, d) ← bitDecode b (p + lenChoice) d
  if choice = 0 then bitTreeDecode b (p + lenLow + posState <<< kLenNumLowBits) kLenNumLowBits d
  else
    let (choice2, d) ← bitDecode b (p + lenChoice2) d
    if choice2 = 0 then
      let (len, d) ← bitTreeDecode b (p + lenMid + posState <<< kLenNumMidBits) kLenNumMidBits d
      return (kLenNumLowSymbols + len, d)
    else
      let (len, d) ← bitTreeDecode b (p + lenHigh) kLenNumHighBits d
      return (kLenNumLowSymbols + kLenNumMidSymbols + len, d)

def kNumLitStates : ℕ := 7
def kStartPosModelIndex : ℕ := 4
def kEndPosModelIndex : ℕ := 14
def kNumPosSlotBits : ℕ := 6
def kNumLenToPosStates : ℕ := 4
def kNumAlignBits : ℕ := 4
def kMatchMinLen : ℕ := 2

-- The places of the models in `buffer`.
def isMatch : ℕ := 0
def isRep : ℕ := 192
def isRepG0 : ℕ := 204
def isRepG1 : ℕ := 216
def isRepG2 : ℕ := 228
def isRep0Long : ℕ := 240
def posSlot : ℕ := 432
def specPos : ℕ := 688
def align : ℕ := 802
def lenCoder : ℕ := 818
def repLenCoder : ℕ := 1332
def literal : ℕ := 1846

def lzmaBaseSize : ℕ := 1846
def lzmaLitSize : ℕ := 768

/-- `lc`, `lp` and `pb`. -/
structure Properties where
  lc : ℕ
  lp : ℕ
  pb : ℕ

/-- The local variables of `LzmaDecode` that outlive a round of its loop, and what `outStream`
points to. -/
structure State where
  dec : Decoder
  state : ℕ
  previousByte : UInt8
  rep0 : ℕ
  rep1 : ℕ
  rep2 : ℕ
  rep3 : ℕ
  nowPos : ℕ
  outStream : Mem

/-- `outStream[nowPos - rep0]`, which has to be a byte that is already decoded. -/
def State.matchByte (s : State) : Option UInt8 :=
  let i := (s.nowPos + 2 ^ 32 - s.rep0) % 2 ^ 32
  if i < s.nowPos then some (s.outStream i) else none

/-- `outStream[nowPos++] = previousByte` -/
def State.put (b : Blocks) (s : State) (x : UInt8) : Option State :=
  if s.nowPos < b.outSize then
    some { s with
      previousByte := x
      outStream := store s.outStream s.nowPos [x]
      nowPos := s.nowPos + 1 }
  else none

/-- How a round of the loop ends. -/
inductive Turn where
  | next (s : State)
  | stop (s : State)
  | dataError (s : State)

/-- `do ... while (len != 0 && nowPos < outSize)` -/
def copyMatch (b : Blocks) : ℕ → State → Option State
  | 0, s => some s
  | len + 1, s => do
    let x ← s.matchByte
    let s ← s.put b x
    if len ≠ 0 ∧ s.nowPos < b.outSize then copyMatch b len s else return s

/-- A round for a literal; `d` is the decoder behind the first bit. -/
def literalTurn (b : Blocks) (c : Properties) (s : State) (d : Decoder) : Option Turn := do
  let probs := literal + lzmaLitSize *
    ((s.nowPos &&& (1 <<< c.lp - 1)) <<< c.lc + s.previousByte.toNat >>> (8 - c.lc))
  let (x, dec) ← if s.state ≥ kNumLitStates then do
      let matchByte ← s.matchByte
      lzmaLiteralDecodeMatch b probs matchByte d
    else lzmaLiteralDecode b probs d
  let s ← { s with dec := dec }.put b x
  return .next { s with
    state := if s.state < 4 then 0 else if s.state < 10 then s.state - 3 else s.state - 6 }

/-- What follows the length and the distance of a match. -/
def copyTurn (b : Blocks) (len : ℕ) (s : State) : Option Turn := do
  if s.rep0 = 0 then return .stop s
  else if s.rep0 > s.nowPos then return .dataError s
  else
    let s ← copyMatch b (len + kMatchMinLen) s
    return .next s

/-- The length of a repeated distance. -/
def repLength (b : Blocks) (posState : ℕ) (s : State) (d : Decoder) : Option Turn := do
  let (len, dec) ← lzmaLenDecode b repLenCoder posState d
  copyTurn b len { s with dec := dec, state := if s.state < 7 then 8 else 11 }

def repTurn (b : Blocks) (posState : ℕ) (s : State) (d : Decoder) : Option Turn := do
  let (g0, dec) ← bitDecode b (isRepG0 + s.state) d
  if g0 = 0 then
    let (long, dec) ← bitDecode b (isRep0Long + s.state <<< kNumPosBitsMax + posState) dec
    if long = 0 then
      if s.nowPos = 0 then return .dataError { s with dec := dec }
      else
        let s := { s with dec := dec, state := if s.state < 7 then 9 else 11 }
        let x ← s.matchByte
        let s ← s.put b x
        return .next s
    else repLength b posState s dec
  else
    let (g1, dec) ← bitDecode b (isRepG1 + s.state) dec
    if g1 = 0 then
      repLength b posState { s with rep0 := s.rep1, rep1 := s.rep0 } dec
    else
      let (g2, dec) ← bitDecode b (isRepG2 + s.state) dec
      if g2 = 0 then
        repLength b posState { s with rep0 := s.rep2, rep1 := s.rep0, rep2 := s.rep1 } dec
      else
        repLength b posState { s with rep0 := s.rep3, rep1 := s.rep0, rep2 := s.rep1, rep3 := s.rep2 } dec

/-- The distance of a match, less one. -/
def distance (b : Blocks) (len : ℕ) (d : Decoder) : Option (ℕ × Decoder) := do
  let lenState := if len < kNumLenToPosStates then len else kNumLenToPosStates - 1
  let (slot, d) ← bitTreeDecode b (posSlot + lenState <<< kNumPosSlotBits) kNumPosSlotBits d
  if slot ≥ kStartPosModelIndex then
    let numDirectBits := slot >>> 1 - 1
    let rep0 := (2 ||| (slot &&& 1)) <<< numDirectBits % 2 ^ 32
    if slot < kEndPosModelIndex then
      let (low, d) ← reverseBitTreeDecode b (specPos + rep0 - slot - 1) numDirectBits d
      return ((rep0 + low) % 2 ^ 32, d)
    else
      let (high, rd) ← directBits b (numDirectBits - kNumAlignBits) 0 d.rd
      let (low, d) ← reverseBitTreeDecode b align kNumAlignBits { d with rd := rd }
      return ((rep0 + high <<< kNumAlignBits % 2 ^ 32 + low) % 2 ^ 32, d)
  else return (slot, d)

def matchTurn (b : Blocks) (posState : ℕ) (s : State) (d : Decoder) : Option Turn := do
  let (len, dec) ← lzmaLenDecode b lenCoder posState d
  let (rep0, dec) ← distance b len dec
  copyTurn b len { s with
    dec := dec
    state := if s.state < 7 then 7 else 10
    rep0 := (rep0 + 1) % 2 ^ 32, rep1 := s.rep0, rep2 := s.rep1, rep3 := s.rep2 }

/-- One round of the loop of `LzmaDecode`. -/
def turn (b : Blocks) (c : Properties) (s : State) : Option Turn := do
  let posState := s.nowPos &&& (1 <<< c.pb - 1)
  if s.dec.rd.extraBytes ≠ 0 then return .dataError s
  else
    let (bit, dec) ← bitDecode b (isMatch + s.state <<< kNumPosBitsMax + posState) s.dec
    if bit = 0 then literalTurn b c s dec
    else
      let (rep, dec) ← bitDecode b (isRep + s.state) dec
      if rep = 1 then repTurn b posState s dec
      else matchTurn b posState s dec

/-- What a call leaves: its result, `*outSizeProcessed` where it is set, and the memory. -/
structure Outcome where
  result : ℕ
  outSizeProcessed : Option ℕ
  outStream : Mem

def lzmaResultOk : ℕ := 0
def lzmaResultDataError : ℕ := 1
def lzmaResultNotEnoughMem : ℕ := 2

/-- The loop. Every round but the last one decodes at least a byte; `n` rounds are allowed. -/
def decodeLoop (b : Blocks) (c : Properties) : ℕ → State → Option Outcome
  | 0, _ => none
  | n + 1, s => do
    if s.nowPos < b.outSize then
      match ← turn b c s with
      | .next s => decodeLoop b c n s
      | .stop s => return ⟨lzmaResultOk, some s.nowPos, s.outStream⟩
      | .dataError s => return ⟨lzmaResultDataError, some 0, s.outStream⟩
    else return ⟨lzmaResultOk, some s.nowPos, s.outStream⟩

/-- `LzmaDecode` -/
def lzmaDecode (bufferSize : ℕ) (c : Properties) (inStream : List UInt8) (outStream : Mem)
    (outSize : ℕ) : Option Outcome := do
  let numProbs := literal + lzmaLitSize <<< (c.lc + c.lp)
  if bufferSize < numProbs * 2 then return ⟨lzmaResultNotEnoughMem, none, outStream⟩
  else
    let b : Blocks := ⟨numProbs, inStream, outSize⟩
    let rd ← rangeDecoderInit b
    decodeLoop b c (outSize + 1)
      { dec := ⟨fun _ ↦ 1024, rd⟩
        state := 0
        previousByte := 0
        rep0 := 1
        rep1 := 1
        rep2 := 1
        rep3 := 1
        nowPos := 0
        outStream := outStream }

def lzmaMaxSize : ℕ := 16000

/-- `for (k = 0; prop0 >= d; k++, prop0 -= d)`, in at most `n` rounds. -/
def divLoop (d : ℕ) : ℕ → ℕ → ℕ → ℕ × ℕ
  | 0, k, prop0 => (k, prop0)
  | n + 1, k, prop0 => if prop0 ≥ d then divLoop d n (k + 1) (prop0 - d) else (k, prop0)

def sizeLoop (inBuffer : List UInt8) : ℕ → ℕ → ℕ → Option ℕ
  | 0, _, outSize => some outSize
  | n + 1, i, outSize => do
    let x ← inBuffer[i + 5]?
    sizeLoop inBuffer n (i + 1) ((outSize + x.toNat <<< (i * 8)) % 2 ^ 32)

/-- Whether one of the upper four bytes of the size is set. -/
def tooLong (inBuffer : List UInt8) : ℕ → ℕ → Option Bool
  | 0, _ => some false
  | n + 1, i => do
    let x ← inBuffer[i + 9]?
    if x ≠ 0 then return true else tooLong inBuffer n (i + 1)

/-- `lzma_decode`; `inBuffer` has `inLength` bytes. The result is 1 also for what it refuses
itself. -/
def lzma_decode (inBuffer : List UInt8) (outBuffer : Mem) : Option Outcome := do
  let _ ← [0, 1, 2, 3, 4].mapM fun i ↦ inBuffer[i]?
  let outSize ← sizeLoop inBuffer 4 0 0
  if outSize = 0xFFFFFFFF then return ⟨1, none, outBuffer⟩
  else if (← tooLong inBuffer 4 0) then return ⟨1, none, outBuffer⟩
  else
    let prop0 ← inBuffer[0]?
    if prop0.toNat ≥ 9 * 5 * 5 then return ⟨1, none, outBuffer⟩
    else
      let (pb, prop0) := divLoop (9 * 5) 5 0 prop0.toNat
      let (lp, lc) := divLoop 9 5 0 prop0
      let lzmaInternalSize := (lzmaBaseSize + lzmaLitSize <<< (lc + lp)) * 2
      if lzmaInternalSize > lzmaMaxSize then return ⟨1, none, outBuffer⟩
      else lzmaDecode lzmaInternalSize ⟨lc, lp, pb⟩ (inBuffer.drop 13) outBuffer outSize

end UBoot.LibGeneric.LzmaDecode
