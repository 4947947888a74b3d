import UBoot.Tools.RangeEncoder

namespace UBoot.Tools.LzmaEncoder

open RangeEncoder

/-- The `CMyBitEncoder`s of the encoder; `rep` tells `_repMatchLenEncoder` from `_lenEncoder`. -/
inductive Ctx where
  | isMatch (state posState : ℕ)
  | isRep (state : ℕ)
  | isRepG0 (state : ℕ)
  | isRepG1 (state : ℕ)
  | isRepG2 (state : ℕ)
  | isRep0Long (state posState : ℕ)
  | posSlotEncoder (lenToPosState i : ℕ)
  | posEncoders (i : ℕ)
  | posAlignEncoder (i : ℕ)
  | choice (rep : Bool)
  | choice2 (rep : Bool)
  | lowCoder (rep : Bool) (posState i : ℕ)
  | midCoder (rep : Bool) (posState i : ℕ)
  | highCoder (rep : Bool) (i : ℕ)
  | literal (sub i : ℕ)
  deriving DecidableEq

/-- `Encode`, for a symbol that is not 0 or is. -/
def encodeBit (c : Ctx) (symbol : ℕ) (s : Coder Ctx) : Coder Ctx := s.encode c (symbol ≠ 0)

/-- `CBitTreeEncoder::Encode`, from node `modelIndex` on, with `bitIndex` bits to go. -/
def bitTreeEncode (models : ℕ → Ctx) (symbol : ℕ) : ℕ → ℕ → Coder Ctx → Coder Ctx
  | 0, _, s => s
  | bitIndex + 1, modelIndex, s =>
    let bit := symbol >>> bitIndex &&& 1
    bitTreeEncode models symbol bitIndex (modelIndex <<< 1 ||| bit) (encodeBit (models modelIndex) bit s)

/-- `ReverseBitTreeEncode` and `CBitTreeEncoder::ReverseEncode` -/
def reverseBitTreeEncode (models : ℕ → Ctx) : ℕ → ℕ → ℕ → Coder Ctx → Coder Ctx
  | 0, _, _, s => s
  | n + 1, modelIndex, symbol, s =>
    let bit := symbol &&& 1
    reverseBitTreeEncode models n (modelIndex <<< 1 ||| bit) (symbol >>> 1)
      (encodeBit (models modelIndex) bit s)

/-- `EncodeDirectBits` -/
def encodeDirectBits (value : ℕ) : ℕ → Coder Ctx → Coder Ctx
  | 0, s => s
  | i + 1, s => encodeDirectBits value i (s.directBit (value >>> i &&& 1 = 1))

/-- `CLiteralEncoder2::Encode` -/
def literalEncode (sub : ℕ) (symbol : UInt8) (s : Coder Ctx) : Coder Ctx :=
  bitTreeEncode (.literal sub) symbol.toNat 8 1 s

/-- The loop of `CLiteralEncoder2::EncodeMatched`. -/
def encodeMatchedLoop (sub : ℕ) (matchByte symbol : UInt8) : ℕ → ℕ → Coder Ctx → Coder Ctx
  | 0, _, s => s
  | i + 1, context, s =>
    let bit := symbol.toNat >>> i &&& 1
    let matchBit := matchByte.toNat >>> i &&& 1
    let s := encodeBit (.literal sub (0x100 + matchBit <<< 8 + context)) bit s
    if matchBit ≠ bit then bitTreeEncode (.literal sub) symbol.toNat i (context <<< 1 ||| bit) s
    else encodeMatchedLoop sub matchByte symbol i (context <<< 1 ||| bit) s

def encodeMatched (sub : ℕ) (matchByte symbol : UInt8) (s : Coder Ctx) : Coder Ctx :=
  encodeMatchedLoop sub matchByte symbol 8 1 s

/-- `NLength::CEncoder::Encode` -/
def lenEncode (rep : Bool) (symbol posState : ℕ) (s : Coder Ctx) : Coder Ctx :=
  if symbol < 8 then
    bitTreeEncode (.lowCoder rep posState) symbol 3 1 (encodeBit (.choice rep) 0 s)
  else
    let s := encodeBit (.choice rep) 1 s
    if symbol < 16 then
      bitTreeEncode (.midCoder rep posState) (symbol - 8) 3 1 (encodeBit (.choice2 rep) 0 s)
    else bitTreeEncode (.highCoder rep) (symbol - 16) 8 1 (encodeBit (.choice2 rep) 1 s)

/-- `g_FastPos`, as `CFastPosInit` fills it. -/
def gFastPos : List ℕ :=
  0 :: 1 :: (List.range' 2 18).flatMap fun slotFast ↦ List.replicate (1 <<< (slotFast >>> 1 - 1)) slotFast

def getPosSlot (pos : ℕ) : ℕ :=
  if pos < 1 <<< 10 then gFastPos.getD pos 0
  else if pos < 1 <<< 19 then gFastPos.getD (pos >>> 9) 0 + 18
  else gFastPos.getD (pos >>> 18) 0 + 36

def getLenToPosState (len : ℕ) : ℕ := if len - 2 < 4 then len - 2 else 3

/-- `_numLiteralContextBits`, `_numLiteralPosStateBits` and `_posStateBits`. -/
structure Settings where
  numLiteralContextBits : ℕ
  numLiteralPosStateBits : ℕ
  posStateBits : ℕ

/-- `CEncoder` of LZMAEncoder.h, as far as what it writes depends on it. -/
structure State where
  coder : Coder Ctx
  state : ℕ
  previousByte : UInt8
  repDistances : List ℕ
  nowPos : ℕ

def kLiteralNextStates : List ℕ := [0, 0, 0, 0, 1, 2, 3, 4, 5, 6, 4, 5]
def kMatchNextStates : List ℕ := [7, 7, 7, 7, 7, 7, 7, 10, 10, 10, 10, 10]
def kRepNextStates : List ℕ := [8, 8, 8, 8, 8, 8, 8, 11, 11, 11, 11, 11]
def kShortRepNextStates : List ℕ := [9, 9, 9, 9, 9, 9, 9, 11, 11, 11, 11, 11]

/-- `CLiteralEncoder::GetState` -/
def getState (c : Settings) (pos : ℕ) (prevByte : UInt8) : ℕ :=
  (pos &&& (1 <<< c.numLiteralPosStateBits - 1)) <<< c.numLiteralContextBits +
    prevByte.toNat >>> (8 - c.numLiteralContextBits)

/-- The literal branch of `CodeOneBlock`; `data` is what `GetIndexByte` looks at. -/
def encodeLiteral (c : Settings) (data : List UInt8) (s : State) : State :=
  let posState := s.nowPos &&& (1 <<< c.posStateBits - 1)
  let coder := encodeBit (.isMatch s.state posState) 0 s.coder
  let curByte := data.getD s.nowPos 0
  let subCoder := getState c s.nowPos s.previousByte
  { s with
    coder :=
      if ¬ s.state < 7 then
        encodeMatched subCoder (data.getD (s.nowPos - s.repDistances.getD 0 0 - 1) 0) curByte coder
      else literalEncode subCoder curByte coder
    state := kLiteralNextStates.getD s.state 0
    previousByte := curByte
    nowPos := s.nowPos + 1 }

/-- What `CodeOneBlock` writes for a distance that was used before. -/
def encodeRepDistance (pos len posState state : ℕ) (s : Coder Ctx) : Coder Ctx :=
  let s := encodeBit (.isRep state) 1 s
  if pos = 0 then
    let s := encodeBit (.isRepG0 state) 0 s
    encodeBit (.isRep0Long state posState) (if len = 1 then 0 else 1) s
  else
    let s := encodeBit (.isRepG0 state) 1 s
    if pos = 1 then encodeBit (.isRepG1 state) 0 s
    else encodeBit (.isRepG2 state) (pos - 2) (encodeBit (.isRepG1 state) 1 s)

/-- The branch for `pos < kNumRepDistances`. -/
def encodeRep (c : Settings) (data : List UInt8) (pos len : ℕ) (s : State) : State :=
  let posState := s.nowPos &&& (1 <<< c.posStateBits - 1)
  let coder := encodeBit (.isMatch s.state posState) 1 s.coder
  let coder := encodeRepDistance pos len posState s.state coder
  let distance := s.repDistances.getD pos 0
  { s with
    coder := if len = 1 then coder else lenEncode true (len - 2) posState coder
    state := (if len = 1 then kShortRepNextStates else kRepNextStates).getD s.state 0
    previousByte := data.getD (s.nowPos + (len - 1)) 0
    repDistances := if pos ≠ 0 then distance :: s.repDistances.eraseIdx pos else s.repDistances
    nowPos := s.nowPos + len }

/-- What `CodeOneBlock` writes for a new distance. -/
def encodeDistance (pos len : ℕ) (s : Coder Ctx) : Coder Ctx :=
  let posSlot := getPosSlot pos
  let s := bitTreeEncode (.posSlotEncoder (getLenToPosState len)) posSlot 6 1 s
  if posSlot ≥ 4 then
    let footerBits := posSlot >>> 1 - 1
    let base := (2 ||| (posSlot &&& 1)) <<< footerBits
    let posReduced := pos - base
    if posSlot < 14 then
      reverseBitTreeEncode (fun i ↦ .posEncoders (base + i - posSlot - 1)) footerBits 1 posReduced s
    else
      reverseBitTreeEncode .posAlignEncoder 4 1 (posReduced &&& 15)
        (encodeDirectBits (posReduced >>> 4) (footerBits - 4) s)
  else s

/-- The branch for other distances; `pos` is already decreased by `kNumRepDistances`. -/
def encodeMatch (c : Settings) (data : List UInt8) (pos len : ℕ) (s : State) : State :=
  let posState := s.nowPos &&& (1 <<< c.posStateBits - 1)
  let coder := encodeBit (.isMatch s.state posState) 1 s.coder
  let coder := encodeBit (.isRep s.state) 0 coder
  { s with
    coder := encodeDistance pos len (lenEncode false (len - 2) posState coder)
    state := kMatchNextStates.getD s.state 0
    previousByte := data.getD (s.nowPos + (len - 1)) 0
    repDistances := pos :: s.repDistances.eraseIdx 3
    nowPos := s.nowPos + len }

/-- A round of the loop of `CodeOneBlock` for the `pos` and `len` that `GetOptimum` has found. -/
def encodeOne (c : Settings) (data : List UInt8) (s : State) (found : ℕ × ℕ) : State :=
  let (pos, len) := found
  if len = 1 ∧ pos = 0xFFFFFFFF then encodeLiteral c data s
  else if pos < 4 then encodeRep c data pos len s
  else encodeMatch c data (pos - 4) len s

def init : State where
  coder := ⟨fun _ ↦ 1024, Encoder.init⟩
  state := 0
  previousByte := 0
  repDistances := [0, 0, 0, 0]
  nowPos := 0

/-- `CodeReal`, for the decisions of `GetOptimum`. The first byte is a literal in any case. -/
def codeReal (c : Settings) (data : List UInt8) (found : List (ℕ × ℕ)) : List UInt8 :=
  let s := if data = [] then init else found.foldl (encodeOne c data) (encodeLiteral c data init)
  s.coder.rc.flushData.stream

/-- The file that LzmaAlone.cpp writes: `WriteCoderProperties`, the size and the code. -/
def lzmaAlone (c : Settings) (dictionarySize : ℕ) (data : List UInt8) (found : List (ℕ × ℕ)) :
    List UInt8 :=
  UInt8.ofNat ((c.posStateBits * 5 + c.numLiteralPosStateBits) * 9 + c.numLiteralContextBits) ::
    (List.range 4).map (fun i ↦ UInt8.ofNat (dictionarySize >>> (8 * i))) ++
    (List.range 8).map (fun i ↦ UInt8.ofNat (data.length >>> (8 * i))) ++ codeReal c data found

end UBoot.Tools.LzmaEncoder
