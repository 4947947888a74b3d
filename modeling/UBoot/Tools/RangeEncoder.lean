import Mathlib.Logic.Function.Iterate
import UBoot.Lib.RangeCoder

namespace UBoot.Tools.RangeEncoder

open Lib.RangeCoder

/-- `CEncoder` of RangeCoder.h, with what has been written to its stream. `Low` is below 2^33
whenever it is looked at, so that nothing is lost in its 64 bits. -/
structure Encoder where
  ffNum : ℕ
  cache : UInt8
  low : ℕ
  range : ℕ
  stream : List UInt8

def Encoder.init : Encoder where
  ffNum := 0
  cache := 0
  low := 0
  range := 0xFFFFFFFF
  stream := []

namespace Encoder

/-- `ShiftLow`; `UInt32(Low)` is `low % 2^32`. -/
def shiftLow (e : Encoder) : Encoder :=
  let carry := UInt8.ofNat (e.low >>> 32)
  if e.low < 0xFF000000 ∨ e.low >>> 32 % 2 ^ 32 = 1 then
    { e with
      stream := e.stream ++ (e.cache + carry) :: List.replicate e.ffNum (0xFF + carry)
      ffNum := 0
      cache := UInt8.ofNat ((e.low % 2 ^ 32) >>> 24)
      low := (e.low % 2 ^ 32) <<< 8 % 2 ^ 32 }
  else
    { e with
      ffNum := e.ffNum + 1
      low := (e.low % 2 ^ 32) <<< 8 % 2 ^ 32 }

def flushData (e : Encoder) : Encoder := shiftLow^[5] e

/-- What follows every change of `Range`. -/
def normalize (e : Encoder) : Encoder :=
  if e.range < top then { e with range := e.range <<< 8 }.shiftLow else e

/-- `CBitEncoder::Encode`, as far as the range coder goes. -/
def encode (e : Encoder) (prob : ℕ) (symbol : Bool) : Encoder :=
  let newBound := (e.range >>> 11) * prob
  if symbol then { e with low := e.low + newBound, range := e.range - newBound }.normalize
  else { e with range := newBound }.normalize

/-- One round of `EncodeDirectBits`. -/
def directBit (e : Encoder) (bit : Bool) : Encoder :=
  let range := e.range >>> 1
  if bit then { e with low := e.low + range, range := range }.normalize
  else { e with range := range }.normalize

end Encoder

/-- The change of `Prob` in `CBitEncoder::Encode`. -/
def updateModel (prob : ℕ) (symbol : Bool) : ℕ :=
  if symbol then prob - prob >>> 5 else prob + (2048 - prob) >>> 5

/-- An encoder with the `Prob`s of its models. -/
structure Coder (γ : Type) where
  models : γ → ℕ
  rc : Encoder

variable {γ : Type} [DecidableEq γ]

namespace Coder

def encode (s : Coder γ) (c : γ) (symbol : Bool) : Coder γ where
  models := Function.update s.models c (updateModel (s.models c) symbol)
  rc := s.rc.encode (s.models c) symbol

def directBit (s : Coder γ) (bit : Bool) : Coder γ := { s with rc := s.rc.directBit bit }

/-- A decision that a model is kept for, or a direct bit. -/
def code (s : Coder γ) (d : Option γ × Bool) : Coder γ :=
  match d.1 with
  | some c => s.encode c d.2
  | none => s.directBit d.2

end Coder

/-- The two kinds of decisions, as a model of the shares of a range. -/
def bits (γ : Type) [DecidableEq γ] : Model (γ → ℕ) (Option γ) where
  zero p k r := match k with
    | some c => (r >>> 11) * p c
    | none => r >>> 1
  one p k r := match k with
    | some c => r - (r >>> 11) * p c
    | none => r >>> 1
  learn p k b := match k with
    | some c => Function.update p c (updateModel (p c) b)
    | none => p

/-- No outcome is ruled out. -/
def Live (p : γ → ℕ) : Prop := ∀ c, 31 ≤ p c ∧ p c ≤ 2017

theorem updateModel_live {prob : ℕ} (h : 31 ≤ prob ∧ prob ≤ 2017) (b : Bool) :
    31 ≤ updateModel prob b ∧ updateModel prob b ≤ 2017 := by
  rw [updateModel]
  split_ifs <;> rw [Nat.shiftRight_eq_div_pow] <;> omega

theorem Live.update {p : γ → ℕ} (h : Live p) (c : γ) (b : Bool) :
    Live (Function.update p c (updateModel (p c) b)) := by
  intro c'
  rcases eq_or_ne c' c with rfl | hc
  · rw [Function.update_self]
    exact updateModel_live (h c') b
  · rw [Function.update_of_ne hc]
    exact h c'

theorem bits_fair : (bits γ).Fair Live (fun _ ↦ True) where
  learn {p k} hp b := by
    cases k with
    | some c => exact hp.update c b
    | none => exact hp
  zero {p k r} hp _ hr := by
    rw [top] at hr
    cases k with
    | some c =>
      have hmul : 8192 * 31 ≤ (r >>> 11) * p c :=
        Nat.mul_le_mul (by rw [Nat.shiftRight_eq_div_pow]; omega) (hp c).1
      simp only [bits]
      omega
    | none =>
      simp only [bits, Nat.shiftRight_eq_div_pow]
      omega
  one {p k r} hp _ hr := by
    rw [top] at hr
    cases k with
    | some c =>
      have hmul : (r >>> 11) * p c ≤ (r >>> 11) * 2017 := Nat.mul_le_mul_left _ (hp c).2
      simp only [bits]
      rw [Nat.shiftRight_eq_div_pow] at hmul ⊢
      omega
    | none =>
      simp only [bits, Nat.shiftRight_eq_div_pow]
      omega
  sum {p k r} hp _ hr := by
    cases k with
    | some c =>
      have hmul : (r >>> 11) * p c ≤ (r >>> 11) * 2017 := Nat.mul_le_mul_left _ (hp c).2
      simp only [bits]
      rw [Nat.shiftRight_eq_div_pow] at hmul ⊢
      omega
    | none =>
      simp only [bits, Nat.shiftRight_eq_div_pow]
      omega

namespace Encoder

/-- The bytes that are written or held back. -/
def pending (e : Encoder) : List UInt8 := e.stream ++ e.cache :: List.replicate e.ffNum 0xFF

/-- The lower end of the range, counted from the first byte on. -/
def total (e : Encoder) : ℕ := value e.pending * 2 ^ 32 + e.low

/-- A range of length `r` lies above `low`. No carry out of it reaches the bytes that are
written. -/
structure Bounded (e : Encoder) (r : ℕ) : Prop where
  low : e.low + r ≤ 2 ^ 33
  total : e.total + r ≤ (value e.stream + 1) * 256 ^ (e.ffNum + 1) * 2 ^ 32

theorem value_replicate_ff (n : ℕ) : value (List.replicate n 0xFF) + 1 = 256 ^ n := by
  induction n with
  | zero => rfl
  | succ n ih =>
    rw [List.replicate_succ, value_cons, List.length_replicate, Nat.add_assoc, ih, Nat.pow_succ,
      show (0xFF : UInt8).toNat = 255 from rfl]
    ring

theorem value_replicate_zero (n : ℕ) : value (List.replicate n 0) = 0 := by
  induction n with
  | zero => rfl
  | succ n ih =>
    rw [List.replicate_succ, value_cons, ih]
    simp

theorem value_pending (e : Encoder) :
    value e.pending + 1 = value e.stream * 256 ^ (e.ffNum + 1) + (e.cache.toNat + 1) * 256 ^ e.ffNum := by
  have hff := value_replicate_ff e.ffNum
  rw [pending, value_append, value_cons, List.length_cons, List.length_replicate, Nat.add_mul]
  omega

variable {e : Encoder} {r : ℕ}

/-- A carry finds room in `cache`. -/
theorem Bounded.cache_lt (h : e.Bounded r) (hr : 0 < r) (hlow : 2 ^ 32 ≤ e.low) :
    e.cache.toNat < 255 := by
  by_contra hfull
  have heq : e.cache.toNat + 1 = 256 := by
    have := e.cache.toNat_lt
    omega
  have hvalue := value_pending e
  rw [heq, ← Nat.pow_succ', ← Nat.succ_mul] at hvalue
  have htotal := h.total
  rw [Nat.succ_eq_add_one] at hvalue
  rw [Encoder.total, ← hvalue, Nat.add_mul] at htotal
  omega

theorem value_carry (h : e.cache.toNat < 255) :
    value (e.stream ++ (e.cache + 1) :: List.replicate e.ffNum (0xFF + 1)) = value e.pending + 1 := by
  have hcache : (e.cache + 1).toNat = e.cache.toNat + 1 := by
    rw [UInt8.toNat_add, show (1 : UInt8).toNat = 1 from rfl]
    exact Nat.mod_eq_of_lt (by omega)
  rw [value_pending, show (0xFF + 1 : UInt8) = 0 from rfl, value_append, value_cons, hcache,
    value_replicate_zero, List.length_cons, List.length_replicate]
  rfl

theorem low_shiftLow (e : Encoder) : e.shiftLow.low = e.low * 256 % 2 ^ 32 := by
  rw [shiftLow]
  split_ifs <;> simp only [Nat.shiftLeft_eq] <;> omega

/-- `ShiftLow` writes out what is held back. -/
theorem shiftLow_write (written : List UInt8) (low : ℕ) (hwrite : e.low < 0xFF000000 ∨ 2 ^ 32 ≤ e.low)
    (hlow : e.low < 2 ^ 33) (hmod : low = e.low % 2 ^ 32)
    (hstream : written = e.stream ++
      (e.cache + UInt8.ofNat (e.low >>> 32)) ::
        List.replicate e.ffNum ((0xFF : UInt8) + UInt8.ofNat (e.low >>> 32))) :
    e.shiftLow = { e with
      stream := written, ffNum := 0, cache := UInt8.ofNat (low / 2 ^ 24), low := low * 256 % 2 ^ 32 } := by
  have hcond : e.low < 0xFF000000 ∨ e.low >>> 32 % 2 ^ 32 = 1 := by
    rw [Nat.shiftRight_eq_div_pow]
    omega
  rw [shiftLow, if_pos hcond, hstream, hmod]
  simp only [Nat.shiftRight_eq_div_pow, Nat.shiftLeft_eq]

theorem shiftLow_keep (hlow : 0xFF000000 ≤ e.low) (hlt : e.low < 2 ^ 32) :
    e.shiftLow = { e with ffNum := e.ffNum + 1, low := e.low * 256 % 2 ^ 32 } := by
  have hcond : ¬ (e.low < 0xFF000000 ∨ e.low >>> 32 % 2 ^ 32 = 1) := by
    rw [Nat.shiftRight_eq_div_pow]
    omega
  rw [shiftLow, if_neg hcond, Nat.mod_eq_of_lt hlt, Nat.shiftLeft_eq]

/-- The lower end and the length of the range are counted in smaller units. -/
structure Shifted (e e' : Encoder) (r : ℕ) : Prop where
  total : e'.total = e.total * 256
  length : e'.pending.length = e.pending.length + 1
  bounded : e'.Bounded (r * 256)

/-- A byte that is written out, with all that was held back, for a carry of `c`. -/
theorem shifted_write {written : List UInt8} {low c : ℕ}
    (hlow : e.low = 2 ^ 32 * c + low) (hlt : low < 2 ^ 32) (hr : low + r ≤ 2 ^ 32) (htop : r ≤ top)
    (hvalue : value written = value e.pending + c) (hlength : written.length = e.pending.length) :
    Shifted e { e with
      stream := written, ffNum := 0, cache := UInt8.ofNat (low / 2 ^ 24), low := low * 256 % 2 ^ 32 } r := by
  have hbyte : (UInt8.ofNat (low / 2 ^ 24)).toNat = low / 2 ^ 24 := by
    rw [UInt8.toNat_ofNat']
    exact Nat.mod_eq_of_lt (by omega)
  have htotal : value (written ++ [UInt8.ofNat (low / 2 ^ 24)]) * 2 ^ 32 + low * 256 % 2 ^ 32 =
      e.total * 256 := by
    rw [value_append, value_singleton, hbyte, hvalue, Encoder.total, hlow, List.length_singleton]
    omega
  refine ⟨htotal, ?_, ⟨?_, ?_⟩⟩
  · rw [pending, List.length_append, hlength]
    rfl
  · rw [top] at htop
    simp only
    omega
  · rw [Encoder.total, pending, List.replicate_zero]
    simp only
    rw [htotal, Encoder.total, hvalue, hlow]
    omega

theorem Bounded.keep (h : e.Bounded r) (hlow : 0xFF000000 ≤ e.low) (hlt : e.low < 2 ^ 32)
    (hr : r ≤ top) : Shifted e { e with ffNum := e.ffNum + 1, low := e.low * 256 % 2 ^ 32 } r := by
  have hpending : pending { e with ffNum := e.ffNum + 1, low := e.low * 256 % 2 ^ 32 } =
      e.pending ++ [0xFF] := by
    rw [pending, pending, List.replicate_succ', List.append_assoc, List.cons_append]
  have htotal : Encoder.total { e with ffNum := e.ffNum + 1, low := e.low * 256 % 2 ^ 32 } =
      e.total * 256 := by
    rw [Encoder.total, hpending, value_append, value_singleton, List.length_singleton,
      show (0xFF : UInt8).toNat = 255 from rfl, Encoder.total]
    simp only
    omega
  refine ⟨htotal, ?_, ⟨?_, ?_⟩⟩
  · rw [hpending, List.length_append]
    rfl
  · rw [top] at hr
    simp only
    omega
  · rw [htotal, ← Nat.add_mul]
    calc (e.total + r) * 256 ≤ (value e.stream + 1) * 256 ^ (e.ffNum + 1) * 2 ^ 32 * 256 :=
          Nat.mul_le_mul_right _ h.total
      _ = (value e.stream + 1) * 256 ^ (e.ffNum + 1 + 1) * 2 ^ 32 := by ring

theorem Bounded.shiftLow (h : e.Bounded r) (hpos : 0 < r) (hr : r ≤ top) :
    Shifted e e.shiftLow r := by
  have hlow := h.low
  have htop := hr
  rw [top] at htop
  rcases Nat.lt_or_ge e.low (2 ^ 32) with hlt | hcarry
  · rcases Nat.lt_or_ge e.low 0xFF000000 with hsmall | hff
    · rw [shiftLow_write e.pending _ (Or.inl hsmall) (by omega) (Nat.mod_eq_of_lt hlt).symm]
      · exact shifted_write (c := 0) (by omega) hlt (by omega) hr rfl rfl
      · rw [Nat.shiftRight_eq_div_pow, Nat.div_eq_of_lt hlt, pending]
        simp
    · rw [shiftLow_keep hff hlt]
      exact h.keep hff hlt hr
  · have hcache := h.cache_lt hpos hcarry
    have hone : e.low >>> 32 = 1 := by
      rw [Nat.shiftRight_eq_div_pow]
      omega
    rw [shiftLow_write _ (e.low - 2 ^ 32) (Or.inr hcarry) (by omega) (by omega) rfl, hone]
    refine shifted_write (c := 1) (by omega) (by omega) (by omega) hr (value_carry hcache) ?_
    simp [pending]

theorem Bounded.narrow (h : e.Bounded r) {start r' : ℕ} (range : ℕ) (hr : start + r' ≤ r) :
    Encoder.total { e with low := e.low + start, range := range } = e.total + start ∧
      Bounded { e with low := e.low + start, range := range } r' := by
  have hlow := h.low
  have htotal := h.total
  have heq : Encoder.total { e with low := e.low + start, range := range } = e.total + start := by
    simp only [Encoder.total, pending]
    omega
  refine ⟨heq, ⟨?_, ?_⟩⟩
  · simp only
    omega
  · rw [heq]
    simp only
    omega

@[simp] theorem range_shiftLow (e : Encoder) : e.shiftLow.range = e.range := by
  rw [Encoder.shiftLow]
  split_ifs <;> rfl

/-- `normalize` follows the change of units. -/
theorem Bounded.normalize (h : e.Bounded e.range) (hpos : 0 < e.range) :
    e.normalize.range = Model.scale e.range ∧
      e.normalize.total = e.total * 256 ^ Model.digits e.range ∧
      e.normalize.pending.length = e.pending.length + Model.digits e.range ∧
      e.normalize.Bounded e.normalize.range := by
  rw [Encoder.normalize, Model.scale, Model.digits]
  split_ifs with hr
  · have hshift := Bounded.shiftLow (e := { e with range := e.range <<< 8 }) (r := e.range)
      ⟨h.low, h.total⟩ hpos (Nat.le_of_lt hr)
    have hrange : ({ e with range := e.range <<< 8 } : Encoder).shiftLow.range = e.range * 256 := by
      rw [range_shiftLow, Nat.shiftLeft_eq]
    refine ⟨hrange, ?_, hshift.length, ?_⟩
    · rw [hshift.total, Nat.pow_one]
      rfl
    · rw [hrange]
      exact hshift.bounded
  · exact ⟨rfl, by simp, rfl, h⟩

/-- An encoder that has named a point with the decisions so far. -/
structure Ready (e : Encoder) : Prop where
  wide : top ≤ e.range
  bounded : e.Bounded e.range

theorem ready_init : Encoder.init.Ready where
  wide := by
    rw [top]
    decide
  bounded := ⟨by decide, by decide⟩

/-- One decision, for the model that belongs to it. -/
theorem Ready.part (h : e.Ready) {start size : ℕ} (hsize : 65536 ≤ size)
    (hsum : start + size ≤ e.range) {e' : Encoder}
    (he : e' = ({ e with low := e.low + start, range := size } : Encoder).normalize) :
    e'.Ready ∧ e'.range = Model.scale size ∧
      e'.total = (e.total + start) * 256 ^ Model.digits size ∧
      e'.pending.length = e.pending.length + Model.digits size := by
  obtain ⟨htotal, hbounded⟩ := h.bounded.narrow size hsum
  obtain ⟨hrange, htotal', hlength, hbounded'⟩ := hbounded.normalize (by simp only; omega)
  rw [he]
  refine ⟨⟨?_, hbounded'⟩, hrange, ?_, hlength⟩
  · rw [hrange]
    exact Model.top_le_scale hsize
  · rw [htotal', htotal]

theorem low_iterate (e : Encoder) (n : ℕ) : (shiftLow^[n] e).low % 2 ^ 32 = e.low * 256 ^ n % 2 ^ 32 := by
  induction n with
  | zero => simp
  | succ n ih =>
    rw [Function.iterate_succ_apply', low_shiftLow, Nat.mod_mod, Nat.mul_mod, ih, ← Nat.mul_mod]
    ring_nf

theorem Bounded.mono {r' : ℕ} (h : e.Bounded r) (hr : r' ≤ r) : e.Bounded r' := by
  have hlow := h.low
  have htotal := h.total
  exact ⟨by omega, by omega⟩

theorem Bounded.iterate (h : e.Bounded 1) (n : ℕ) : (Encoder.shiftLow^[n] e).Bounded 1 ∧
    (Encoder.shiftLow^[n] e).total = e.total * 256 ^ n ∧
    (Encoder.shiftLow^[n] e).pending.length = e.pending.length + n := by
  induction n with
  | zero => simpa using h
  | succ n ih =>
    obtain ⟨hbounded, htotal, hlength⟩ := ih
    have hshift := hbounded.shiftLow Nat.one_pos (by rw [top]; omega)
    rw [Function.iterate_succ_apply']
    refine ⟨hshift.bounded.mono (by omega), ?_, ?_⟩
    · rw [hshift.total, htotal, Nat.pow_succ, Nat.mul_assoc]
    · rw [hshift.length, hlength, Nat.add_assoc]

/-- `FlushData` writes out the point. -/
theorem Ready.flushData (h : e.Ready) :
    value e.flushData.stream = e.total ∧ e.flushData.stream.length + 1 = e.pending.length + 5 := by
  have hwide := h.wide
  rw [top] at hwide
  have hbounded : e.Bounded 1 := h.bounded.mono (by omega)
  have hlow : (shiftLow^[4] e).low = 0 := by
    have hmod := low_iterate e 4
    have hlast : (shiftLow^[4] e).low = (shiftLow^[3] e).low * 256 % 2 ^ 32 := by
      rw [Function.iterate_succ_apply', low_shiftLow]
    rw [show 256 ^ 4 = 2 ^ 32 from rfl, Nat.mul_mod_left] at hmod
    omega
  have hflush : e.flushData = { shiftLow^[4] e with
      stream := (shiftLow^[4] e).pending, ffNum := 0, cache := 0, low := 0 } := by
    rw [Encoder.flushData, Function.iterate_succ_apply',
      shiftLow_write (shiftLow^[4] e).pending 0 (by omega) (by omega) (by omega)
        (by rw [hlow, pending]; simp)]
    rfl
  obtain ⟨-, htotal, hlength⟩ := hbounded.iterate 4
  rw [Encoder.total, hlow, Nat.add_zero] at htotal
  rw [hflush]
  simp only
  omega

end Encoder

namespace Coder

open Encoder

variable {s : Coder γ}

/-- `code` gives the outcome its part of the range. -/
theorem rc_code (s : Coder γ) (k : Option γ) (b : Bool) :
    (s.code (k, b)).rc = ({ s.rc with
      low := s.rc.low + (bits γ).start s.models k s.rc.range b
      range := (bits γ).size s.models k s.rc.range b } : Encoder).normalize := by
  cases k <;> cases b <;> rfl

theorem models_code (s : Coder γ) (k : Option γ) (b : Bool) :
    (s.code (k, b)).models = (bits γ).learn s.models k b := by
  cases k <;> rfl

/-- All decisions together name the point that `locate` computes. -/
theorem total_foldl (hs : Live s.models) (hready : s.rc.Ready) (ds : List (Option γ × Bool)) :
    (ds.foldl code s).rc.Ready ∧
      (ds.foldl code s).rc.total = s.rc.total * 256 ^ ((bits γ).locate s.models s.rc.range ds).2 +
        ((bits γ).locate s.models s.rc.range ds).1 ∧
      (ds.foldl code s).rc.pending.length =
        s.rc.pending.length + ((bits γ).locate s.models s.rc.range ds).2 := by
  induction ds generalizing s with
  | nil => exact ⟨hready, by simp [Model.locate], rfl⟩
  | cons d ds ih =>
    obtain ⟨k, b⟩ := d
    obtain ⟨hwide, hsum⟩ := bits_fair.size hs trivial hready.wide b
    obtain ⟨hready', hrange, htotal, hlength⟩ := hready.part hwide hsum (rc_code s k b)
    have hlive : Live (s.code (k, b)).models := by
      rw [models_code]
      exact bits_fair.learn hs b
    obtain ⟨hlast, htotal', hlength'⟩ := ih hlive hready'
    rw [models_code, hrange] at htotal' hlength'
    rw [List.foldl_cons]
    refine ⟨hlast, ?_, ?_⟩
    · rw [htotal', htotal, Model.locate]
      ring
    · rw [hlength', hlength, Model.locate]
      ring

end Coder

/-- What is written for a list of decisions makes a decoder that starts with its first five bytes
stand before these decisions, whatever follows. -/
theorem names_flushData {p : γ → ℕ} (hp : Live p) (ds : List (Option γ × Bool)) (more : List UInt8) :
    ∃ first rest, (ds.foldl Coder.code ⟨p, Encoder.init⟩).rc.flushData.stream = first ++ rest ∧
      first.length = 5 ∧ value first < 0xFFFFFFFF ∧
      (bits γ).Names p 0xFFFFFFFF (value first) (rest ++ more) ds := by
  obtain ⟨hready, htotal, hlength⟩ := Coder.total_foldl (s := ⟨p, Encoder.init⟩) hp Encoder.ready_init ds
  obtain ⟨hvalue, hstream⟩ := hready.flushData
  generalize (ds.foldl Coder.code ⟨p, Encoder.init⟩).rc.flushData.stream = w at *
  have hlocate : ((bits γ).locate p 0xFFFFFFFF ds).1 < _ :=
    bits_fair.locate_lt (fun _ _ ↦ trivial) hp (by rw [top]; omega)
  have hinit : Encoder.init.total = 0 := rfl
  have hpending : Encoder.init.pending.length = 1 := rfl
  have hrange : Encoder.init.range = 0xFFFFFFFF := rfl
  simp only [hinit, hpending, hrange, Nat.zero_mul, Nat.zero_add] at htotal hlength
  rw [htotal] at hvalue
  have hlen : w.length = 5 + ((bits γ).locate p 0xFFFFFFFF ds).2 := by omega
  have hrest : (w.drop 5).length = ((bits γ).locate p 0xFFFFFFFF ds).2 := by
    rw [List.length_drop]
    omega
  have hsplit : value (w.take 5) * 256 ^ ((bits γ).locate p 0xFFFFFFFF ds).2 + value (w.drop 5) =
      ((bits γ).locate p 0xFFFFFFFF ds).1 := by
    rw [← hrest, ← value_append, List.take_append_drop, hvalue]
  refine ⟨w.take 5, w.drop 5, (List.take_append_drop 5 w).symm, ?_, ?_, ⟨?_, ?_⟩⟩
  · rw [List.length_take]
    omega
  · rw [← hsplit] at hlocate
    exact Nat.lt_of_mul_lt_mul_right (Nat.lt_of_le_of_lt (Nat.le_add_right _ _) hlocate)
  · rw [List.length_append]
    omega
  · rw [List.take_left' hrest]
    exact hsplit

end UBoot.Tools.RangeEncoder
