import UBoot.LibGeneric.LzmaSafety
import UBoot.LibGeneric.LzmaSymbols

namespace UBoot.LibGeneric.LzmaRoundTrip

open Lib.Memory Lib.RangeCoder LzmaDecode LzmaSafety LzmaCoding Tools.RangeEncoder

/-- The bytes from `pos` on repeat those at a distance of `distance + 1`. -/
structure Repeats (data : List UInt8) (pos distance len : ℕ) : Prop where
  inside : pos + len ≤ data.length
  same : ∀ i < len, data.getD (pos + i) 0 = data.getD (pos + i - (distance + 1)) 0

/-- What `GetOptimum` may return: it has compared the bytes at every distance that it returns. -/
inductive Found (data : List UInt8) (s : Tools.LzmaEncoder.State) : ℕ × ℕ → Prop where
  | literal (h : s.nowPos < data.length) : Found data s (0xFFFFFFFF, 1)
  | shortRep (h : Repeats data s.nowPos (s.repDistances.getD 0 0) 1) : Found data s (0, 1)
  | rep {pos len : ℕ} (hpos : pos < 4) (hlen : 2 ≤ len) (hle : len ≤ 273)
    (h : Repeats data s.nowPos (s.repDistances.getD pos 0) len) : Found data s (pos, len)
  | distance {pos len : ℕ} (hpos : pos < s.nowPos) (hlt : pos < 2 ^ 28) (hlen : 2 ≤ len) (hle : len ≤ 273)
    (h : Repeats data s.nowPos pos len) : Found data s (pos + 4, len)

/-- A list of decisions that leads to the end of `data`. -/
def Covers (c : Tools.LzmaEncoder.Settings) (data : List UInt8) :
    Tools.LzmaEncoder.State → List (ℕ × ℕ) → Prop
  | s, [] => s.nowPos = data.length
  | s, f :: fs => Found data s f ∧ Covers c data (Tools.LzmaEncoder.encodeOne c data s f) fs

/-- The memory begins with the first `n` bytes of `data`. -/
def Holds (data : List UInt8) (n : ℕ) (m : Mem) : Prop := ∀ i < n, m i = data.getD i 0

variable {data : List UInt8} {b : Blocks} {k : ℕ}

theorem Holds.push {n : ℕ} {m : Mem} (h : Holds data n m) :
    Holds data (n + 1) (store m n [data.getD n 0]) := by
  intro i hi
  rcases Nat.lt_or_ge i n with hlt | hge
  · rw [store_of_lt m _ hlt]
    exact h i hlt
  · obtain rfl : i = n := by omega
    rw [store, if_pos (Nat.le_refl _), Nat.sub_self]
    rfl

theorem Holds.append {n len : ℕ} {m : Mem} (h : Holds data n m) (hle : n + len ≤ data.length) :
    Holds data (n + len) (store m n ((data.drop n).take len)) := by
  intro i hi
  rcases Nat.lt_or_ge i n with hlt | hge
  · rw [store_of_lt m _ hlt]
    exact h i hlt
  · obtain ⟨j, rfl⟩ := Nat.exists_eq_add_of_le hge
    rw [store_add m (by rw [List.length_take, List.length_drop]; omega), List.getElem_take,
      List.getElem_drop, List.getD_eq_getElem _ _ (by omega)]

theorem drop_eq_cons {n : ℕ} (h : n < data.length) :
    data.drop n = data.getD n 0 :: data.drop (n + 1) := by
  rw [List.drop_eq_getElem_cons h, List.getD_eq_getElem _ _ h]

section Copy

variable {s : State} {distance : ℕ}

/-- The byte at the distance is the one that comes next. -/
theorem Repeats.put {len : ℕ} (h : Repeats data s.nowPos distance (len + 1)) (hsize : b.outSize = data.length)
    (hlt : data.length < 2 ^ 32) (hrep : s.rep0 = distance + 1) (hdistance : distance < s.nowPos)
    (hout : Holds data s.nowPos s.outStream) :
    s.matchByte = some (data.getD s.nowPos 0) ∧ s.put b (data.getD s.nowPos 0) = some { s with
      previousByte := data.getD s.nowPos 0
      outStream := store s.outStream s.nowPos [data.getD s.nowPos 0]
      nowPos := s.nowPos + 1 } := by
  have hinside := h.inside
  have hsame := h.same 0 (Nat.succ_pos _)
  rw [Nat.add_zero] at hsame
  refine ⟨?_, put_eq (by omega) _⟩
  rw [matchByte_eq (by omega) (by omega) (by omega), hrep, hout _ (by omega), hsame]

theorem copyMatch_eq {len : ℕ} (h : Repeats data s.nowPos distance (len + 1)) (hsize : b.outSize = data.length)
    (hlt : data.length < 2 ^ 32) (hrep : s.rep0 = distance + 1) (hdistance : distance < s.nowPos)
    (hout : Holds data s.nowPos s.outStream) :
    copyMatch b (len + 1) s = some { s with
      previousByte := data.getD (s.nowPos + len) 0
      nowPos := s.nowPos + (len + 1)
      outStream := store s.outStream s.nowPos ((data.drop s.nowPos).take (len + 1)) } := by
  induction len generalizing s with
  | zero =>
    have hinside := h.inside
    obtain ⟨hbyte, hput⟩ := h.put hsize hlt hrep hdistance hout
    rw [copyMatch, hbyte, drop_eq_cons (by omega), List.take_succ_cons, List.take_zero]
    simp only [Option.bind_eq_bind, Option.bind_some, hput]
    rw [if_neg (by omega)]
    rfl
  | succ len ih =>
    have hinside := h.inside
    obtain ⟨hbyte, hput⟩ := h.put hsize hlt hrep hdistance hout
    have hrest : Repeats data (s.nowPos + 1) distance (len + 1) := by
      refine ⟨by omega, fun i hi ↦ ?_⟩
      have hsame := h.same (i + 1) (by omega)
      rwa [show s.nowPos + (i + 1) = s.nowPos + 1 + i by omega] at hsame
    have hcopy := ih (s := { s with
      previousByte := data.getD s.nowPos 0
      outStream := store s.outStream s.nowPos [data.getD s.nowPos 0]
      nowPos := s.nowPos + 1 }) hrest hrep (Nat.lt_succ_of_lt hdistance) hout.push
    have hstore := store_store s.outStream s.nowPos [data.getD s.nowPos 0]
      ((data.drop (s.nowPos + 1)).take (len + 1))
    rw [List.length_singleton] at hstore
    rw [copyMatch, hbyte, drop_eq_cons (by omega), List.take_succ_cons, ← List.singleton_append, ← hstore]
    simp only [Option.bind_eq_bind, Option.bind_some, hput]
    rw [if_pos (by omega), hcopy]
    simp only [Nat.add_assoc, Nat.add_comm 1]

theorem copyTurn_eq {len : ℕ} (h : Repeats data s.nowPos distance len) (hlen : 2 ≤ len)
    (hsize : b.outSize = data.length) (hlt : data.length < 2 ^ 32) (hrep : s.rep0 = distance + 1)
    (hdistance : distance < s.nowPos) (hout : Holds data s.nowPos s.outStream) :
    copyTurn b (len - 2) s = some (.next { s with
      previousByte := data.getD (s.nowPos + (len - 1)) 0
      nowPos := s.nowPos + len
      outStream := store s.outStream s.nowPos ((data.drop s.nowPos).take len) }) := by
  obtain ⟨n, rfl⟩ := Nat.exists_eq_add_of_le' hlen
  have hcopy := copyMatch_eq h hsize hlt hrep hdistance hout
  rw [copyTurn, if_neg (by omega), if_neg (by omega), kMatchMinLen, Nat.add_sub_cancel, hcopy]
  rfl

end Copy

def properties (c : Tools.LzmaEncoder.Settings) : Properties :=
  ⟨c.numLiteralContextBits, c.numLiteralPosStateBits, c.posStateBits⟩

/-- The decoder has decoded what the encoder has encoded. -/
structure Tracks (data : List UInt8) (s : Tools.LzmaEncoder.State) (d : State) : Prop where
  state : d.state = s.state
  state_lt : s.state < 12
  previousByte : d.previousByte = s.previousByte
  nowPos : d.nowPos = s.nowPos
  reps : s.repDistances.map (· + 1) = [d.rep0, d.rep1, d.rep2, d.rep3]
  reps_lt : ∀ r ∈ s.repDistances, r < max s.nowPos 1
  fresh : s.nowPos = 0 → s.state < 7
  holds : Holds data s.nowPos d.outStream

/-- The state of the decoder behind a literal. -/
def literalNext (d : State) (x : UInt8) : State :=
  { d with
    state := if d.state < 4 then 0 else if d.state < 10 then d.state - 3 else d.state - 6
    previousByte := x
    outStream := store d.outStream d.nowPos [x]
    nowPos := d.nowPos + 1 }

/-- The state of the decoder behind a match. -/
def copyNext (data : List UInt8) (d : State) (state len : ℕ) : State :=
  { d with
    state := state
    previousByte := data.getD (d.nowPos + (len - 1)) 0
    nowPos := d.nowPos + len
    outStream := store d.outStream d.nowPos ((data.drop d.nowPos).take len) }

/-- The number of literal coders. -/
def numCoders (c : Tools.LzmaEncoder.Settings) : ℕ := 2 ^ (c.numLiteralContextBits + c.numLiteralPosStateBits)

section Turns

variable {c : Tools.LzmaEncoder.Settings} {s : Tools.LzmaEncoder.State} {d : State}

/-- What the encoder writes for its step to `s'` makes the decoder take a turn to `d'`. -/
def Follows (b : Blocks) (c : Tools.LzmaEncoder.Settings) (s s' : Tools.LzmaEncoder.State) (d d' : State) :
    Prop :=
  ∃ enc, s'.coder = enc s.coder ∧ Leads b (numCoders c) enc
    (fun dec ↦ turn b (properties c) { d with dec := dec }) (fun dec ↦ .next { d' with dec := dec })

variable (hb : Sized b (properties c))
include hb

theorem literal_le : LzmaDecode.literal + lzmaLitSize * numCoders c ≤ b.numProbs := by
  rw [hb.numProbs, Nat.shiftLeft_eq]
  exact Nat.le_refl _

theorem posState_lt (nowPos : ℕ) : nowPos &&& (1 <<< c.posStateBits - 1) < 16 := by
  have hle : 2 ^ c.posStateBits ≤ 2 ^ 4 := Nat.pow_le_pow_right (by decide) hb.pb_le
  rw [Nat.one_shiftLeft, Nat.and_two_pow_sub_one_eq_mod]
  exact Nat.lt_of_lt_of_le (Nat.mod_lt _ (Nat.two_pow_pos _)) hle

theorem getState_lt (pos : ℕ) (x : UInt8) : Tools.LzmaEncoder.getState c pos x < numCoders c := by
  have hinside := hb.literal_inside pos x
  rw [hb.numProbs, Nat.shiftLeft_eq, lzmaLitSize] at hinside
  show _ < 2 ^ ((properties c).lc + (properties c).lp)
  show (pos &&& (1 <<< (properties c).lp - 1)) <<< (properties c).lc + x.toNat >>> (8 - (properties c).lc) < _
  omega

/-- The first decision of a turn. -/
theorem turn_leads (h : Tracks data s d) {bit : ℕ} (hbit : bit ≤ 1) {enc : Coder Tools.LzmaEncoder.Ctx → _}
    {g : Decoder → Turn}
    (hrest : Leads b (numCoders c) enc (fun dec ↦
      if bit = 0 then literalTurn b (properties c) d dec
      else do
        let (rep, dec) ← bitDecode b (isRep + d.state) dec
        if rep = 1 then repTurn b (d.nowPos &&& (1 <<< c.posStateBits - 1)) d dec
        else matchTurn b (d.nowPos &&& (1 <<< c.posStateBits - 1)) d dec) g) :
    Leads b (numCoders c)
      (fun t ↦ enc (Tools.LzmaEncoder.encodeBit
        (.isMatch s.state (s.nowPos &&& (1 <<< c.posStateBits - 1))) bit t))
      (fun dec ↦ turn b (properties c) { d with dec := dec }) g := by
  have hvalid : Valid (numCoders c) (.isMatch s.state (s.nowPos &&& (1 <<< c.posStateBits - 1))) :=
    ⟨h.state_lt, posState_lt hb _⟩
  have hplace : isMatch + d.state <<< kNumPosBitsMax + (d.nowPos &&& (1 <<< c.posStateBits - 1)) =
      place (.isMatch s.state (s.nowPos &&& (1 <<< c.posStateBits - 1))) := by
    rw [h.state, h.nowPos, place]
  refine (encodeBit_agrees (literal_le hb) hvalid hplace hbit).seq hrest fun dec dec' hextra he ↦ ?_
  rw [turn, if_neg (not_not.mpr hextra)]
  simp only [properties, he, Option.bind_eq_bind, Option.bind_some]
  -- the parts of the turn do not look at the decoder of the state
  rfl

omit hb in
theorem Tracks.rep0 (h : Tracks data s d) : d.rep0 = s.repDistances.getD 0 0 + 1 ∧
    s.repDistances.getD 0 0 < max s.nowPos 1 := by
  have hreps := h.reps
  have hlt := h.reps_lt
  cases hr : s.repDistances with
  | nil =>
    rw [hr] at hreps
    cases hreps
  | cons r rs =>
    rw [hr] at hreps hlt
    injection hreps with hrep0
    exact ⟨hrep0.symm, hlt r List.mem_cons_self⟩

omit hb in
theorem Tracks.matchByte (h : Tracks data s d) (hlt : data.length < 2 ^ 32) {distance : ℕ}
    (hrep : d.rep0 = distance + 1) (hdistance : distance < s.nowPos) (hle : s.nowPos ≤ data.length) :
    d.matchByte = some (data.getD (s.nowPos - (distance + 1)) 0) := by
  have hpos := h.nowPos
  rw [matchByte_eq (by omega) (by omega) (by omega), hrep, hpos, h.holds _ (by omega)]

theorem literalTurn_leads (hsize : b.outSize = data.length) (h : Tracks data s d) (hlt : s.nowPos < data.length) :
    Leads b (numCoders c)
      (fun t ↦ if ¬ s.state < 7 then
          Tools.LzmaEncoder.encodeMatched (Tools.LzmaEncoder.getState c s.nowPos s.previousByte)
            (data.getD (s.nowPos - s.repDistances.getD 0 0 - 1) 0) (data.getD s.nowPos 0) t
        else
          Tools.LzmaEncoder.literalEncode (Tools.LzmaEncoder.getState c s.nowPos s.previousByte)
            (data.getD s.nowPos 0) t)
      (literalTurn b (properties c) d)
      (fun dec ↦ .next { literalNext d (data.getD s.nowPos 0) with dec := dec }) := by
  have hsub := getState_lt hb s.nowPos s.previousByte
  have hroom : d.nowPos < b.outSize := by
    rw [hsize, h.nowPos]
    exact hlt
  have hprobs : LzmaDecode.literal + lzmaLitSize *
      ((d.nowPos &&& (1 <<< (properties c).lp - 1)) <<< (properties c).lc +
        d.previousByte.toNat >>> (8 - (properties c).lc)) =
      LzmaDecode.literal + lzmaLitSize * Tools.LzmaEncoder.getState c s.nowPos s.previousByte := by
    rw [h.nowPos, h.previousByte]
    rfl
  by_cases hstate : s.state < 7
  · refine Leads.congr (Leads.map (literal_agrees hsub (literal_le hb) (data.getD s.nowPos 0))
      fun dec dec' he ↦ ?_) fun t ↦ if_neg (not_not.mpr hstate)
    rw [literalTurn]
    simp only [hprobs]
    rw [if_neg (by rw [h.state, kNumLitStates]; omega), he]
    simp only [Option.bind_eq_bind, Option.bind_some]
    rw [put_eq (s := { d with dec := dec' }) hroom]
    rfl
  · obtain ⟨hrep, hlow⟩ := h.rep0
    have hfresh := h.fresh
    have hbyte := h.matchByte (by rw [← hsize]; exact hb.outSize_lt) hrep (by omega) (Nat.le_of_lt hlt)
    rw [← Nat.sub_sub] at hbyte
    refine Leads.congr (Leads.map (encodeMatched_agrees hsub (literal_le hb)
      (data.getD (s.nowPos - s.repDistances.getD 0 0 - 1) 0) (data.getD s.nowPos 0))
        fun dec dec' he ↦ ?_) fun t ↦ if_pos hstate
    rw [literalTurn]
    simp only [hprobs]
    rw [if_pos (by rw [h.state, kNumLitStates]; omega)]
    simp only [hbyte, Option.bind_eq_bind, Option.bind_some, he]
    rw [put_eq (s := { d with dec := dec' }) hroom]
    rfl

omit hb in
theorem nextState {n : ℕ} (h : n < 12) :
    Tools.LzmaEncoder.kLiteralNextStates.getD n 0 = (if n < 4 then 0 else if n < 10 then n - 3 else n - 6) ∧
      Tools.LzmaEncoder.kMatchNextStates.getD n 0 = (if n < 7 then 7 else 10) ∧
      Tools.LzmaEncoder.kRepNextStates.getD n 0 = (if n < 7 then 8 else 11) ∧
      Tools.LzmaEncoder.kShortRepNextStates.getD n 0 = (if n < 7 then 9 else 11) := by
  interval_cases n <;> decide

theorem literal_follows (hsize : b.outSize = data.length) (h : Tracks data s d) (hlt : s.nowPos < data.length) :
    ∃ d', Follows b c s (Tools.LzmaEncoder.encodeLiteral c data s) d d' ∧
      Tracks data (Tools.LzmaEncoder.encodeLiteral c data s) d' := by
  have hstate := (nextState h.state_lt).1
  have hstate_lt := h.state_lt
  refine ⟨literalNext d (data.getD s.nowPos 0), ⟨_, ?_, turn_leads hb h (Nat.zero_le 1)
    (literalTurn_leads hb hsize h hlt)⟩, ?_⟩
  · rfl
  · refine ⟨?_, ?_, rfl, congrArg (· + 1) h.nowPos, h.reps, ?_, fun hzero ↦ absurd hzero (Nat.succ_ne_zero _), ?_⟩
    · rw [Tools.LzmaEncoder.encodeLiteral, hstate, literalNext, h.state]
    · rw [Tools.LzmaEncoder.encodeLiteral]
      simp only [hstate]
      split_ifs <;> omega
    · intro r hr
      have := h.reps_lt r hr
      show r < max (s.nowPos + 1) 1
      omega
    · rw [literalNext, h.nowPos]
      exact h.holds.push

/-- The second decision, between a distance that was used before and a new one. -/
theorem repTurn_leads (h : Tracks data s d) {enc : Coder Tools.LzmaEncoder.Ctx → _} {g : Decoder → Turn}
    (hrest : Leads b (numCoders c) enc (repTurn b (d.nowPos &&& (1 <<< c.posStateBits - 1)) d) g) :
    Leads b (numCoders c)
      (fun t ↦ enc (Tools.LzmaEncoder.encodeBit (.isRep s.state) 1 (Tools.LzmaEncoder.encodeBit
        (.isMatch s.state (s.nowPos &&& (1 <<< c.posStateBits - 1))) 1 t)))
      (fun dec ↦ turn b (properties c) { d with dec := dec }) g := by
  have hisRep := encodeBit_agrees (literal_le hb) (c := .isRep s.state) (i := isRep + d.state) h.state_lt
    (by rw [h.state]; rfl) (Nat.le_refl 1)
  refine turn_leads hb h (Nat.le_refl 1) (hisRep.seq hrest fun dec dec' _ he ↦ ?_)
  rw [if_neg Nat.one_ne_zero, he]
  rfl

theorem matchTurn_leads (h : Tracks data s d) {enc : Coder Tools.LzmaEncoder.Ctx → _} {g : Decoder → Turn}
    (hrest : Leads b (numCoders c) enc (matchTurn b (d.nowPos &&& (1 <<< c.posStateBits - 1)) d) g) :
    Leads b (numCoders c)
      (fun t ↦ enc (Tools.LzmaEncoder.encodeBit (.isRep s.state) 0 (Tools.LzmaEncoder.encodeBit
        (.isMatch s.state (s.nowPos &&& (1 <<< c.posStateBits - 1))) 1 t)))
      (fun dec ↦ turn b (properties c) { d with dec := dec }) g := by
  have hisRep := encodeBit_agrees (literal_le hb) (c := .isRep s.state) (i := isRep + d.state) h.state_lt
    (by rw [h.state]; rfl) (Nat.zero_le 1)
  refine turn_leads hb h (Nat.le_refl 1) (hisRep.seq hrest fun dec dec' _ he ↦ ?_)
  rw [if_neg Nat.one_ne_zero, he]
  rfl

omit hb in
theorem Tracks.copy (h : Tracks data s d) (coder : Coder Tools.LzmaEncoder.Ctx) {state len : ℕ} {reps : List ℕ}
    {r₀ r₁ r₂ r₃ : ℕ} (hlen : 1 ≤ len) (hle : s.nowPos + len ≤ data.length) (hstate : state < 12)
    (hreps : reps.map (· + 1) = [r₀, r₁, r₂, r₃]) (hlt : ∀ r ∈ reps, r < s.nowPos) :
    Tracks data
      { coder := coder
        state := state
        previousByte := data.getD (s.nowPos + (len - 1)) 0
        repDistances := reps
        nowPos := s.nowPos + len }
      (copyNext data { d with rep0 := r₀, rep1 := r₁, rep2 := r₂, rep3 := r₃ } state len) where
  state := rfl
  state_lt := hstate
  previousByte := by rw [copyNext, h.nowPos]
  nowPos := congrArg (· + len) h.nowPos
  reps := hreps
  reps_lt r hr := Nat.lt_of_lt_of_le (hlt r hr) (Nat.le_trans (Nat.le_add_right _ _) (Nat.le_max_left _ _))
  fresh hzero := absurd hzero (by simp only; omega)
  holds := by
    rw [copyNext, h.nowPos]
    exact h.holds.append hle

omit hb in
/-- The distances on both sides. -/
theorem Tracks.four (h : Tracks data s d) (hpos : 0 < s.nowPos) : ∃ q₀ q₁ q₂ q₃,
    s.repDistances = [q₀, q₁, q₂, q₃] ∧ (d.rep0 = q₀ + 1 ∧ d.rep1 = q₁ + 1 ∧ d.rep2 = q₂ + 1 ∧ d.rep3 = q₃ + 1) ∧
      q₀ < s.nowPos ∧ q₁ < s.nowPos ∧ q₂ < s.nowPos ∧ q₃ < s.nowPos := by
  have hlt := h.reps_lt
  have hreps := h.reps
  obtain ⟨q₀, q₁, q₂, q₃, hq⟩ : ∃ q₀ q₁ q₂ q₃, s.repDistances = [q₀, q₁, q₂, q₃] := by
    have hlength : s.repDistances.length = 4 := by
      have := congrArg List.length hreps
      rwa [List.length_map] at this
    exact List.length_eq_four.mp hlength
  rw [hq] at hreps hlt
  simp only [List.map_cons, List.map_nil, List.cons.injEq, and_true] at hreps
  simp only [List.mem_cons, List.not_mem_nil, or_false, forall_eq_or_imp, forall_eq] at hlt
  refine ⟨q₀, q₁, q₂, q₃, hq, ?_, ?_⟩ <;> omega

/-- The length of a match with a distance that was used before. -/
theorem repLength_leads (hsize : b.outSize = data.length) (h : Tracks data s d) {distance len : ℕ} (d' : State)
    (hrepeats : Repeats data s.nowPos distance len) (hlen : 2 ≤ len) (hle : len ≤ 273)
    (hrep : d'.rep0 = distance + 1) (hdistance : distance < s.nowPos) (hstate : d'.state = d.state)
    (hnowPos : d'.nowPos = d.nowPos) (hout : d'.outStream = d.outStream) {posState : ℕ} (hposState : posState < 16) :
    Leads b (numCoders c) (Tools.LzmaEncoder.lenEncode true (len - 2) posState)
      (repLength b posState d')
      (fun dec ↦ .next { copyNext data d' (if d.state < 7 then 8 else 11) len with dec := dec }) := by
  refine Leads.map (lenEncode_agrees (literal_le hb) true (by omega) hposState) fun dec dec' he ↦ ?_
  have hcopy := copyTurn_eq (b := b) (s := { d' with dec := dec', state := if d.state < 7 then 8 else 11 })
    (by rw [hnowPos, h.nowPos]; exact hrepeats : Repeats data d'.nowPos distance len) hlen hsize
    (by rw [← hsize]; exact hb.outSize_lt) hrep (by rw [hnowPos, h.nowPos]; exact hdistance)
    (by rw [hnowPos, h.nowPos, hout]; exact h.holds)
  rw [repLength, show repLenCoder = lenBase true from rfl, he]
  simp only [Option.bind_eq_bind, Option.bind_some]
  rw [hstate, hcopy]
  rfl

omit hb in
theorem encodeRep_eq (hstate : s.state < 12) {pos len : ℕ} (hlen : len ≠ 1) :
    Tools.LzmaEncoder.encodeRep c data pos len s =
      { coder := Tools.LzmaEncoder.lenEncode true (len - 2) (s.nowPos &&& (1 <<< c.posStateBits - 1))
          (Tools.LzmaEncoder.encodeRepDistance pos len (s.nowPos &&& (1 <<< c.posStateBits - 1)) s.state
            (Tools.LzmaEncoder.encodeBit (.isMatch s.state (s.nowPos &&& (1 <<< c.posStateBits - 1))) 1 s.coder))
        state := if s.state < 7 then 8 else 11
        previousByte := data.getD (s.nowPos + (len - 1)) 0
        repDistances := if pos ≠ 0 then s.repDistances.getD pos 0 :: s.repDistances.eraseIdx pos
          else s.repDistances
        nowPos := s.nowPos + len } := by
  rw [Tools.LzmaEncoder.encodeRep, if_neg hlen, if_neg hlen, (nextState hstate).2.2.1]

/-- The branch for a distance that was used before. -/
theorem rep_follows (hsize : b.outSize = data.length) (h : Tracks data s d) (hpos : 0 < s.nowPos) {pos len : ℕ}
    (hp : pos < 4) (hlen : 2 ≤ len) (hle : len ≤ 273)
    (hrepeats : Repeats data s.nowPos (s.repDistances.getD pos 0) len) :
    ∃ d', Follows b c s (Tools.LzmaEncoder.encodeRep c data pos len s) d d' ∧
      Tracks data (Tools.LzmaEncoder.encodeRep c data pos len s) d' := by
  have hcoders := literal_le hb
  have hposState := posState_lt hb s.nowPos
  have hne : len ≠ 1 := by omega
  have hstate : (if d.state < 7 then 8 else 11) < 12 := by
    split_ifs <;> omega
  have hinside := hrepeats.inside
  obtain ⟨q₀, q₁, q₂, q₃, hq, ⟨hr₀, hr₁, hr₂, hr₃⟩, hlt₀, hlt₁, hlt₂, hlt₃⟩ := h.four hpos
  have hG0 {bit : ℕ} (hbit : bit ≤ 1) := encodeBit_agrees hcoders (c := .isRepG0 s.state)
    (i := isRepG0 + d.state) h.state_lt (by rw [h.state]; rfl) hbit
  have hG1 {bit : ℕ} (hbit : bit ≤ 1) := encodeBit_agrees hcoders (c := .isRepG1 s.state)
    (i := isRepG1 + d.state) h.state_lt (by rw [h.state]; rfl) hbit
  have hG2 {bit : ℕ} (hbit : bit ≤ 1) := encodeBit_agrees hcoders (c := .isRepG2 s.state)
    (i := isRepG2 + d.state) h.state_lt (by rw [h.state]; rfl) hbit
  have hlong := encodeBit_agrees hcoders
    (c := .isRep0Long s.state (s.nowPos &&& (1 <<< c.posStateBits - 1)))
    (i := isRep0Long + d.state <<< kNumPosBitsMax + (d.nowPos &&& (1 <<< c.posStateBits - 1)))
    ⟨h.state_lt, hposState⟩ (by rw [h.state, h.nowPos]; rfl) (Nat.le_refl 1)
  rw [encodeRep_eq h.state_lt hne, ← h.state, hq]
  rw [hq] at hrepeats
  rw [← h.nowPos] at hposState
  interval_cases pos
  · have hlast := repLength_leads hb hsize h d hrepeats hlen hle hr₀ hlt₀ rfl rfl rfl hposState
    refine ⟨copyNext data d (if d.state < 7 then 8 else 11) len, ⟨_, ?_, repTurn_leads hb h
      ((hG0 (Nat.zero_le 1)).bind (hlong.bind hlast))⟩, ?_⟩
    · simp only [Tools.LzmaEncoder.encodeRepDistance, if_neg hne, if_true, h.nowPos, h.state]
    · exact h.copy _ (by omega) hinside hstate (by rw [hr₀, hr₁, hr₂, hr₃]; rfl)
        (by simp [hlt₀, hlt₁, hlt₂, hlt₃])
  · have hlast := repLength_leads hb hsize h { d with rep0 := d.rep1, rep1 := d.rep0 } hrepeats hlen hle
      hr₁ hlt₁ rfl rfl rfl hposState
    refine ⟨copyNext data { d with rep0 := d.rep1, rep1 := d.rep0 } (if d.state < 7 then 8 else 11) len,
      ⟨_, ?_, repTurn_leads hb h ((hG0 (Nat.le_refl 1)).bind ((hG1 (Nat.zero_le 1)).bind hlast))⟩, ?_⟩
    · simp only [Tools.LzmaEncoder.encodeRepDistance, h.nowPos, h.state]
      rfl
    · exact h.copy _ (by omega) hinside hstate (by rw [hr₀, hr₁, hr₂, hr₃]; rfl)
        (by simp [hlt₀, hlt₁, hlt₂, hlt₃])
  · have hlast := repLength_leads hb hsize h { d with rep0 := d.rep2, rep1 := d.rep0, rep2 := d.rep1 }
      hrepeats hlen hle hr₂ hlt₂ rfl rfl rfl hposState
    refine ⟨copyNext data { d with rep0 := d.rep2, rep1 := d.rep0, rep2 := d.rep1 }
      (if d.state < 7 then 8 else 11) len, ⟨_, ?_, repTurn_leads hb h ((hG0 (Nat.le_refl 1)).bind
        ((hG1 (Nat.le_refl 1)).bind ((hG2 (Nat.zero_le 1)).bind hlast)))⟩, ?_⟩
    · simp only [Tools.LzmaEncoder.encodeRepDistance, h.nowPos, h.state]
      rfl
    · exact h.copy _ (by omega) hinside hstate (by rw [hr₀, hr₁, hr₂, hr₃]; rfl)
        (by simp [hlt₀, hlt₁, hlt₂, hlt₃])
  · have hlast := repLength_leads hb hsize h
      { d with rep0 := d.rep3, rep1 := d.rep0, rep2 := d.rep1, rep3 := d.rep2 }
      hrepeats hlen hle hr₃ hlt₃ rfl rfl rfl hposState
    refine ⟨copyNext data { d with rep0 := d.rep3, rep1 := d.rep0, rep2 := d.rep1, rep3 := d.rep2 }
      (if d.state < 7 then 8 else 11) len, ⟨_, ?_, repTurn_leads hb h ((hG0 (Nat.le_refl 1)).bind
        ((hG1 (Nat.le_refl 1)).bind ((hG2 (Nat.le_refl 1)).bind hlast)))⟩, ?_⟩
    · simp only [Tools.LzmaEncoder.encodeRepDistance, h.nowPos, h.state]
      rfl
    · exact h.copy _ (by omega) hinside hstate (by rw [hr₀, hr₁, hr₂, hr₃]; rfl)
        (by simp [hlt₀, hlt₁, hlt₂, hlt₃])

theorem shortRep_follows (hsize : b.outSize = data.length) (h : Tracks data s d) (hpos : 0 < s.nowPos)
    (hrepeats : Repeats data s.nowPos (s.repDistances.getD 0 0) 1) :
    ∃ d', Follows b c s (Tools.LzmaEncoder.encodeRep c data 0 1 s) d d' ∧
      Tracks data (Tools.LzmaEncoder.encodeRep c data 0 1 s) d' := by
  have hcoders := literal_le hb
  have hposState := posState_lt hb s.nowPos
  have hnowPos := h.nowPos
  have hstate : (if d.state < 7 then 9 else 11) < 12 := by
    split_ifs <;> omega
  have hinside := hrepeats.inside
  obtain ⟨hrep, hlow⟩ := h.rep0
  have hG0 := encodeBit_agrees hcoders (c := .isRepG0 s.state)
    (i := isRepG0 + d.state) h.state_lt (by rw [h.state]; rfl) (Nat.zero_le 1)
  have hlong := encodeBit_agrees hcoders
    (c := .isRep0Long s.state (s.nowPos &&& (1 <<< c.posStateBits - 1)))
    (i := isRep0Long + d.state <<< kNumPosBitsMax + (d.nowPos &&& (1 <<< c.posStateBits - 1)))
    ⟨h.state_lt, hposState⟩ (by rw [h.state, h.nowPos]; rfl) (Nat.zero_le 1)
  refine ⟨copyNext data d (if d.state < 7 then 9 else 11) 1, ⟨_, ?_, repTurn_leads hb h
    (hG0.bind (Leads.map hlong fun dec dec' he ↦ ?_))⟩, ?_⟩
  · rfl
  · obtain ⟨hbyte, hput⟩ := Repeats.put (b := b)
      (s := { d with dec := dec', state := if d.state < 7 then 9 else 11 })
      (by rw [hnowPos]; exact hrepeats : Repeats data d.nowPos (s.repDistances.getD 0 0) (0 + 1)) hsize
      (by rw [← hsize]; exact hb.outSize_lt) hrep
      (by rw [hnowPos]; omega) (by rw [hnowPos]; exact h.holds)
    simp only [if_true, he, Option.bind_eq_bind, Option.bind_some]
    rw [if_neg (by omega), hbyte]
    simp only [Option.bind_some, hput]
    rw [copyNext, drop_eq_cons (by omega), List.take_succ_cons, List.take_zero]
    rfl
  · have hcopy := h.copy (Tools.LzmaEncoder.encodeRep c data 0 1 s).coder (Nat.le_refl 1) hinside hstate
      h.reps fun r hr ↦ by
        have := h.reps_lt r hr
        omega
    rw [h.state, ← (nextState h.state_lt).2.2.2] at hcopy
    rw [h.state, ← (nextState h.state_lt).2.2.2]
    exact hcopy

/-- The branch for a new distance. -/
theorem match_follows (hsize : b.outSize = data.length) (h : Tracks data s d) {pos len : ℕ}
    (hpos : pos < s.nowPos) (hlt : pos < 2 ^ 28) (hlen : 2 ≤ len) (hle : len ≤ 273)
    (hrepeats : Repeats data s.nowPos pos len) :
    ∃ d', Follows b c s (Tools.LzmaEncoder.encodeMatch c data pos len s) d d' ∧
      Tracks data (Tools.LzmaEncoder.encodeMatch c data pos len s) d' := by
  have hcoders := literal_le hb
  have hposState := posState_lt hb s.nowPos
  have hinside := hrepeats.inside
  have hnowPos := h.nowPos
  have hstate : (if d.state < 7 then 7 else 10) < 12 := by
    split_ifs <;> omega
  obtain ⟨q₀, q₁, q₂, q₃, hq, ⟨hr₀, hr₁, hr₂, hr₃⟩, hlt₀, hlt₁, hlt₂, hlt₃⟩ := h.four (by omega)
  have hlast : Leads b (numCoders c) (Tools.LzmaEncoder.encodeDistance pos len)
      (fun dec ↦ do
        let (rep0, dec) ← distance b (len - 2) dec
        copyTurn b (len - 2) { d with
          dec := dec
          state := if d.state < 7 then 7 else 10
          rep0 := (rep0 + 1) % 2 ^ 32, rep1 := d.rep0, rep2 := d.rep1, rep3 := d.rep2 })
      (fun dec ↦ .next { copyNext data { d with rep0 := pos + 1, rep1 := d.rep0, rep2 := d.rep1, rep3 := d.rep2 }
        (if d.state < 7 then 7 else 10) len with dec := dec }) := by
    refine Leads.map (encodeDistance_agrees hcoders len hlt) fun dec dec' he ↦ ?_
    have hcopy := copyTurn_eq (b := b)
      (s := { d with
        dec := dec'
        state := if d.state < 7 then 7 else 10
        rep0 := pos + 1, rep1 := d.rep0, rep2 := d.rep1, rep3 := d.rep2 })
      (by rw [hnowPos]; exact hrepeats : Repeats data d.nowPos pos len) hlen hsize
      (by rw [← hsize]; exact hb.outSize_lt) rfl
      (by rw [hnowPos]; exact hpos) (by rw [hnowPos]; exact h.holds)
    rw [he]
    simp only [Option.bind_eq_bind, Option.bind_some, Nat.mod_eq_of_lt (show pos + 1 < 2 ^ 32 by omega)]
    exact hcopy
  rw [← h.nowPos] at hposState
  refine ⟨copyNext data { d with rep0 := pos + 1, rep1 := d.rep0, rep2 := d.rep1, rep3 := d.rep2 }
    (if d.state < 7 then 7 else 10) len,
    ⟨_, ?_, matchTurn_leads hb h ((lenEncode_agrees hcoders false (by omega) hposState).bind hlast)⟩, ?_⟩
  · rw [hnowPos]
    rfl
  · rw [Tools.LzmaEncoder.encodeMatch, (nextState h.state_lt).2.1, ← h.state, hq]
    exact h.copy _ (by omega) hinside hstate (by rw [hr₀, hr₁, hr₂]; rfl) (by simp [hpos, hlt₀, hlt₁, hlt₂])

omit hb in
theorem nowPos_encodeOne {f : ℕ × ℕ} (hf : Found data s f) :
    s.nowPos < (Tools.LzmaEncoder.encodeOne c data s f).nowPos ∧
      (Tools.LzmaEncoder.encodeOne c data s f).nowPos ≤ data.length := by
  cases hf with
  | literal h => exact ⟨Nat.lt_succ_self _, h⟩
  | shortRep h => exact ⟨Nat.lt_succ_self _, h.inside⟩
  | rep hpos hlen hle h =>
    rw [Tools.LzmaEncoder.encodeOne, if_neg (by omega), if_pos hpos]
    exact ⟨Nat.lt_add_of_pos_right (by omega), h.inside⟩
  | distance hpos hlt hlen hle h =>
    rw [Tools.LzmaEncoder.encodeOne, if_neg (by omega), if_neg (by omega)]
    exact ⟨Nat.lt_add_of_pos_right (by omega), h.inside⟩

/-- The decoder follows the encoder. -/
theorem encodeOne_follows (hsize : b.outSize = data.length) (h : Tracks data s d) (hpos : 0 < s.nowPos)
    {f : ℕ × ℕ} (hf : Found data s f) :
    ∃ d', Follows b c s (Tools.LzmaEncoder.encodeOne c data s f) d d' ∧
      Tracks data (Tools.LzmaEncoder.encodeOne c data s f) d' := by
  cases hf with
  | literal hlt => exact literal_follows hb hsize h hlt
  | shortRep hrepeats => exact shortRep_follows hb hsize h hpos hrepeats
  | rep hp hlen hle hrepeats =>
    rw [Tools.LzmaEncoder.encodeOne, if_neg (by omega), if_pos hp]
    exact rep_follows hb hsize h hpos hp hlen hle hrepeats
  | distance hp hlt hlen hle hrepeats =>
    rw [Tools.LzmaEncoder.encodeOne, if_neg (by omega), if_neg (by omega), Nat.add_sub_cancel]
    exact match_follows hb hsize h hp hlt hlen hle hrepeats

/-- The outcome of a call that has decoded `data`. -/
structure Decoded (data : List UInt8) (o : Outcome) : Prop where
  result : o.result = lzmaResultOk
  processed : o.outSizeProcessed = some data.length
  bytes : bytes o.outStream 0 data.length = data

omit hb in
theorem Holds.bytes {m : Mem} (h : Holds data data.length m) : bytes m 0 data.length = data := by
  rw [← bytes_getD data 0]
  simp only [bytes_length]
  exact bytes_congr fun i _ hi ↦ h i (by omega)

/-- The loop, from a turn on. -/
theorem decodeLoop_leads (hsize : b.outSize = data.length) {found : List (ℕ × ℕ)} (h : Tracks data s d)
    (hpos : 0 < s.nowPos) (hcovers : Covers c data s found) {n : ℕ} (hn : data.length < s.nowPos + n) :
    ∃ enc o, (found.foldl (Tools.LzmaEncoder.encodeOne c data) s).coder = enc s.coder ∧
      Leads b (numCoders c) enc (fun dec ↦ decodeLoop b (properties c) n { d with dec := dec }) (fun _ ↦ o) ∧
      Decoded data o := by
  induction found generalizing s d n with
  | nil =>
    have hend : s.nowPos = data.length := hcovers
    obtain ⟨n, rfl⟩ := Nat.exists_eq_add_of_le' (by omega : 1 ≤ n)
    refine ⟨id, ⟨lzmaResultOk, some d.nowPos, d.outStream⟩, rfl, leads_nil (fun _ ↦ rfl) fun dec ↦ ?_, rfl, ?_, ?_⟩
    · rw [decodeLoop, if_neg (by rw [hsize, ← hend, h.nowPos]; exact Nat.lt_irrefl _)]
      rfl
    · rw [h.nowPos, hend]
    · exact Holds.bytes (hend ▸ h.holds)
  | cons f fs ih =>
    obtain ⟨hf, hrest⟩ := hcovers
    obtain ⟨hprogress, hinside⟩ := nowPos_encodeOne (c := c) hf
    obtain ⟨n, rfl⟩ := Nat.exists_eq_add_of_le' (by omega : 1 ≤ n)
    obtain ⟨d', ⟨enc, hcoder, hturn⟩, htracks⟩ := encodeOne_follows hb hsize h hpos hf
    obtain ⟨enc', o, hcoder', hloop, hdecoded⟩ := ih htracks (by omega) hrest (n := n) (by omega)
    refine ⟨_, o, ?_, hturn.seq hloop fun dec dec' _ he ↦ ?_, hdecoded⟩
    · rw [List.foldl_cons, hcoder', hcoder]
    · rw [decodeLoop, if_pos (by rw [hsize, h.nowPos]; omega), he]
      rfl

end Turns

/-- `RangeDecoderInit` takes the first bytes together. -/
theorem initLoop_eq (n : ℕ) (rd : RangeDecoder) {first rest : List UInt8} (hlength : first.length = n)
    (hcode : rd.code < 2 ^ 32) (hdrop : b.inStream.drop rd.buffer = first ++ rest) :
    initLoop b n rd = some { rd with
      buffer := rd.buffer + n, code := (rd.code * 256 ^ n + value first) % 2 ^ 32 } := by
  induction n generalizing rd first with
  | zero =>
    rw [List.length_eq_zero_iff.mp hlength, value_nil, Nat.pow_zero, Nat.mul_one]
    exact congrArg (fun code ↦ some { rd with code := code }) (Nat.mod_eq_of_lt hcode).symm
  | succ n ih =>
    obtain ⟨x, first, rfl⟩ := List.exists_cons_of_length_eq_add_one hlength
    have hlength' : first.length = n := Nat.succ.inj hlength
    obtain ⟨hread, hdrop'⟩ := readByte_eq _ hdrop
    have hbyte : (rd.code <<< 8 ||| x.toNat) = rd.code * 256 + x.toNat := by
      rw [← Nat.shiftLeft_add_eq_or_of_lt x.toNat_lt, Nat.shiftLeft_eq]
    rw [initLoop, hread]
    simp only [Option.bind_eq_bind, Option.bind_some]
    have hvalue : ((rd.code * 256 + x.toNat) % 2 ^ 32 * 256 ^ n + value first) % 2 ^ 32 =
        (rd.code * 256 ^ (n + 1) + value (x :: first)) % 2 ^ 32 := by
      rw [value_cons, hlength', Nat.pow_succ]
      exact Nat.ModEq.trans (((Nat.mod_modEq _ _).mul_right _).add_right _) (by ring_nf; rfl)
    rw [hbyte, ih _ hlength' (Nat.mod_lt _ (by decide)) hdrop', hvalue]
    simp only [Nat.add_assoc, Nat.add_comm 1]

/-- What `LzmaDecode` sets its variables to. -/
def start (dec : Decoder) (outStream : Mem) : State where
  dec := dec
  state := 0
  previousByte := 0
  rep0 := 1
  rep1 := 1
  rep2 := 1
  rep3 := 1
  nowPos := 0
  outStream := outStream

theorem start_tracks (data : List UInt8) (dec : Decoder) (outStream : Mem) :
    Tracks data Tools.LzmaEncoder.init (start dec outStream) where
  state := rfl
  state_lt := by decide
  previousByte := rfl
  nowPos := rfl
  reps := rfl
  reps_lt := by decide
  fresh _ := by decide
  holds _ hi := absurd hi (Nat.not_lt_zero _)

/-- `LzmaDecode` gives back what `CodeReal` was given, for every way to cut it into literals and
matches, whatever follows the code. -/
theorem lzmaDecode_codeReal (c : Tools.LzmaEncoder.Settings) (hlc : c.numLiteralContextBits ≤ 8)
    (hpb : c.posStateBits ≤ 4) {bufferSize : ℕ}
    (hbuffer : (LzmaDecode.literal + lzmaLitSize * numCoders c) * 2 ≤ bufferSize) (data : List UInt8)
    (hlt : data.length < 2 ^ 32) (found : List (ℕ × ℕ))
    (hcovers : data ≠ [] →
      Covers c data (Tools.LzmaEncoder.encodeLiteral c data Tools.LzmaEncoder.init) found)
    (more : List UInt8) (outStream : Mem) :
    ∃ o, lzmaDecode bufferSize (properties c) (Tools.LzmaEncoder.codeReal c data found ++ more) outStream
      data.length = some o ∧ Decoded data o := by
  obtain ⟨b, hb⟩ : ∃ b : Blocks, b = ⟨LzmaDecode.literal + lzmaLitSize * numCoders c,
    Tools.LzmaEncoder.codeReal c data found ++ more, data.length⟩ := ⟨_, rfl⟩
  have hsized : Sized b (properties c) := by
    rw [hb]
    exact ⟨by rw [Nat.shiftLeft_eq]; rfl, hlc, hpb, hlt⟩
  have hsize : b.outSize = data.length := by rw [hb]
  -- everything behind `RangeDecoderInit`
  obtain ⟨enc, o, hcode, hloop, hdecoded⟩ : ∃ enc o,
      Tools.LzmaEncoder.codeReal c data found = (enc Tools.LzmaEncoder.init.coder).rc.flushData.stream ∧
      Leads b (numCoders c) enc (fun dec ↦ decodeLoop b (properties c) (data.length + 1) (start dec outStream))
        (fun _ ↦ o) ∧ Decoded data o := by
    rw [Tools.LzmaEncoder.codeReal]
    rcases eq_or_ne data [] with rfl | hne
    · rw [if_pos rfl]
      refine ⟨id, ⟨lzmaResultOk, some 0, outStream⟩, rfl, leads_nil (fun _ ↦ rfl) fun dec ↦ ?_, rfl, rfl, rfl⟩
      rw [decodeLoop, if_neg (by rw [hsize]; exact Nat.lt_irrefl 0)]
      rfl
    · have hfirst : Tools.LzmaEncoder.init.nowPos < data.length := List.length_pos_of_ne_nil hne
      obtain ⟨d', ⟨enc, hcoder, hturn⟩, htracks⟩ := literal_follows hsized hsize
        (start_tracks data ⟨fun _ ↦ 1024, ⟨0, 0, 0, 0⟩⟩ outStream) hfirst
      have hnowPos : (Tools.LzmaEncoder.encodeLiteral c data Tools.LzmaEncoder.init).nowPos = 1 := rfl
      obtain ⟨enc', o, hcoder', hloop, hdecoded⟩ := decodeLoop_leads hsized hsize htracks (Nat.succ_pos _)
        (hcovers hne) (n := data.length) (by omega)
      rw [if_neg hne]
      refine ⟨_, o, ?_, hturn.seq hloop fun dec dec' _ he ↦ ?_, hdecoded⟩
      · rw [hcoder', hcoder]
      · rw [decodeLoop, if_pos (by rw [hsize]; exact hfirst)]
        exact (congrArg (· >>= _) he).trans rfl
  obtain ⟨ds, henc, hds⟩ := hloop
  have hlive : Live fun _ : Tools.LzmaEncoder.Ctx ↦ 1024 := fun _ ↦ (by decide : 31 ≤ 1024 ∧ 1024 ≤ 2017)
  obtain ⟨first, rest, hstream, hlength, hvalue, hnames⟩ := names_flushData hlive ds more
  have hstream' : b.inStream = first ++ (rest ++ more) := by
    rw [hb, hcode, henc, ← List.append_assoc, ← hstream]
    rfl
  have hinit : rangeDecoderInit b = some ⟨5, 0xFFFFFFFF, value first, 0⟩ := by
    have hloop := initLoop_eq (b := b) 5 ⟨0, 0xFFFFFFFF, 0, 0⟩ hlength (by decide) hstream'
    simp only [Nat.zero_mul, Nat.zero_add, Nat.mod_eq_of_lt (Nat.lt_trans hvalue (by decide : _ < 2 ^ 32))] at hloop
    exact hloop
  have hbefore : Before b (numCoders c) ⟨fun _ ↦ 1024, ⟨5, 0xFFFFFFFF, value first, 0⟩⟩ (ds ++ []) := by
    refine ⟨(by decide : top ≤ 0xFFFFFFFF), (by decide : 0xFFFFFFFF < 2 ^ 32), rfl, _, hlive, fun _ _ ↦ rfl, ?_⟩
    rw [List.append_nil, hstream', List.drop_left' hlength]
    exact hnames
  obtain ⟨_, he, -⟩ := hds [] _ hbefore
  refine ⟨o, ?_, hdecoded⟩
  have hprobs : LzmaDecode.literal + lzmaLitSize <<< ((properties c).lc + (properties c).lp) =
      LzmaDecode.literal + lzmaLitSize * numCoders c := by
    rw [Nat.shiftLeft_eq]
    rfl
  rw [lzmaDecode]
  simp only [hprobs]
  rw [if_neg (Nat.not_lt.mpr hbuffer), ← hb, hinit]
  exact he

section Header

variable {inBuffer : List UInt8} {size : ℕ}
  (hbytes : ∀ j < 8, inBuffer[j + 5]? = some (UInt8.ofNat (size >>> (8 * j))))
include hbytes

theorem sizeLoop_eq {n i : ℕ} (h : i + n = 4) :
    sizeLoop inBuffer n i (size % 2 ^ (8 * i)) = some (size % 2 ^ 32) := by
  induction n generalizing i with
  | zero =>
    obtain rfl : i = 4 := h
    rfl
  | succ n ih =>
    have hle : 2 ^ (8 * (i + 1)) ≤ 2 ^ 32 := Nat.pow_le_pow_right (by decide) (by omega)
    have hmod := Nat.mod_lt size (Nat.two_pow_pos (8 * (i + 1)))
    have hnext : (size % 2 ^ (8 * i) + (UInt8.ofNat (size >>> (8 * i))).toNat <<< (i * 8)) % 2 ^ 32 =
        size % 2 ^ (8 * (i + 1)) := by
      rw [UInt8.toNat_ofNat', Nat.shiftLeft_eq, Nat.shiftRight_eq_div_pow, Nat.mul_comm i 8, Nat.mul_comm (_ % _),
        ← Nat.mod_mul, ← Nat.pow_add, ← Nat.mul_succ]
      exact Nat.mod_eq_of_lt (Nat.lt_of_lt_of_le hmod hle)
    rw [sizeLoop, hbytes i (by omega)]
    simp only [Option.bind_eq_bind, Option.bind_some]
    rw [hnext]
    exact ih (by omega)

theorem tooLong_eq (hsize : size < 2 ^ 32) {n i : ℕ} (h : i + n = 4) : tooLong inBuffer n i = some false := by
  induction n generalizing i with
  | zero => rfl
  | succ n ih =>
    have hzero : UInt8.ofNat (size >>> (8 * (i + 4))) = 0 := by
      rw [Nat.shiftRight_eq_div_pow, Nat.div_eq_of_lt]
      · rfl
      · exact Nat.lt_of_lt_of_le hsize (Nat.pow_le_pow_right (by decide) (by omega))
    rw [tooLong, show i + 9 = i + 4 + 5 from rfl, hbytes (i + 4) (by omega), hzero]
    exact ih (by omega)

end Header

/-- `lzma_decode` gives back what LzmaAlone.cpp was given, for the settings whose models fit into
`LZMA_MAX_SIZE`. -/
theorem lzma_decode_lzmaAlone (c : Tools.LzmaEncoder.Settings)
    (hmax : c.numLiteralContextBits + c.numLiteralPosStateBits ≤ 3) (hpb : c.posStateBits ≤ 4)
    (dictionarySize : ℕ) (data : List UInt8) (hlt : data.length < 0xFFFFFFFF) (found : List (ℕ × ℕ))
    (hcovers : data ≠ [] →
      Covers c data (Tools.LzmaEncoder.encodeLiteral c data Tools.LzmaEncoder.init) found)
    (more : List UInt8) (outBuffer : Mem) :
    ∃ o, lzma_decode (Tools.LzmaEncoder.lzmaAlone c dictionarySize data found ++ more) outBuffer = some o ∧
      Decoded data o := by
  have hbytes : ∀ j < 8, (Tools.LzmaEncoder.lzmaAlone c dictionarySize data found ++ more)[j + 5]? =
      some (UInt8.ofNat (data.length >>> (8 * j))) := by
    intro j hj
    interval_cases j <;> rfl
  have hsize := sizeLoop_eq hbytes (n := 4) (i := 0) rfl
  rw [Nat.mul_zero, Nat.pow_zero, Nat.mod_one, Nat.mod_eq_of_lt (by omega)] at hsize
  have hlong := tooLong_eq hbytes (by omega) (n := 4) (i := 0) rfl
  have hprop : (UInt8.ofNat ((c.posStateBits * 5 + c.numLiteralPosStateBits) * 9 +
      c.numLiteralContextBits)).toNat =
      (c.posStateBits * 5 + c.numLiteralPosStateBits) * 9 + c.numLiteralContextBits := by
    rw [UInt8.toNat_ofNat']
    omega
  have hdrop : (Tools.LzmaEncoder.lzmaAlone c dictionarySize data found ++ more).drop 13 =
      Tools.LzmaEncoder.codeReal c data found ++ more := rfl
  have hread : [0, 1, 2, 3, 4].mapM (fun i ↦
      (Tools.LzmaEncoder.lzmaAlone c dictionarySize data found ++ more)[i]?) =
      some ((Tools.LzmaEncoder.lzmaAlone c dictionarySize data found ++ more).take 5) := rfl
  have hfirst : (Tools.LzmaEncoder.lzmaAlone c dictionarySize data found ++ more)[0]? =
      some (UInt8.ofNat ((c.posStateBits * 5 + c.numLiteralPosStateBits) * 9 + c.numLiteralContextBits)) := rfl
  have hpb' : divLoop (9 * 5) 5 0 ((c.posStateBits * 5 + c.numLiteralPosStateBits) * 9 +
      c.numLiteralContextBits) =
      (c.posStateBits, c.numLiteralPosStateBits * 9 + c.numLiteralContextBits) := by
    rw [divLoop_eq 0 (by omega)]
    exact Prod.ext (by simp only; omega) (by simp only; omega)
  have hlp : divLoop 9 5 0 (c.numLiteralPosStateBits * 9 + c.numLiteralContextBits) =
      (c.numLiteralPosStateBits, c.numLiteralContextBits) := by
    rw [divLoop_eq 0 (by omega)]
    exact Prod.ext (by simp only; omega) (by simp only; omega)
  have hcoders : lzmaLitSize <<< (c.numLiteralContextBits + c.numLiteralPosStateBits) =
      lzmaLitSize * numCoders c := Nat.shiftLeft_eq _ _
  have hroom : numCoders c ≤ 2 ^ 3 := Nat.pow_le_pow_right (by decide) hmax
  obtain ⟨o, he, ho⟩ := lzmaDecode_codeReal c (by omega) hpb (Nat.le_refl _) data (by omega) found hcovers more
    outBuffer
  refine ⟨o, ?_, ho⟩
  simp only [lzma_decode, hread, hsize, hlong, hfirst, hprop, hpb', hlp, hcoders, hdrop, Option.bind_eq_bind,
    Option.bind_some]
  rw [if_neg (by omega), if_neg Bool.false_ne_true, if_neg (by omega),
    if_neg (by rw [lzmaBaseSize, lzmaLitSize, lzmaMaxSize]; omega)]
  exact he

/-- A literal and a match that overlaps with what it repeats. -/
theorem lzma_decode_lzmaAlone_overlap : ∃ o,
    lzma_decode (Tools.LzmaEncoder.lzmaAlone ⟨3, 0, 2⟩ 0x800000 [0x61, 0x61, 0x61, 0x61] [(0, 3)] ++ [0xFF])
      (fun _ ↦ 0) = some o ∧ Decoded [0x61, 0x61, 0x61, 0x61] o :=
  lzma_decode_lzmaAlone ⟨3, 0, 2⟩ (by decide) (by decide) _ [0x61, 0x61, 0x61, 0x61] (by decide) [(0, 3)]
    (fun _ ↦ ⟨.rep (by decide) (by decide) (by decide) ⟨by decide, by decide⟩, rfl⟩) _ _

end UBoot.LibGeneric.LzmaRoundTrip
