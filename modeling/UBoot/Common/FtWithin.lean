import UBoot.Common.FtEncoding

namespace UBoot.Common.FtWithin

open Lib.CString Lib.Memory Lib.StringTable FtBuild FtEncoding

/-- Only the memory between `pBegin` and `pstrBegin` has been written, and the structure ends before
the strings begin. -/
structure Within (start cxt : FtCxt) : Prop where
  frame : Frame start cxt
  low : cxt.overflow = false → start.pBegin ≤ cxt.p
  apart : cxt.p ≤ cxt.pstr
  high : cxt.pstr ≤ start.pstrBegin
  aligned : cxt.p % 4 = 0

variable {start cxt cxt' : FtCxt} {bs : List UInt8}

theorem Within.stop (h : Within start cxt) : Within start { cxt with overflow := true } where
  frame := ⟨h.frame.bph, h.frame.pBegin, h.frame.pstrBegin, h.frame.mem⟩
  low hover := absurd hover (show ¬ true = false by decide)
  apart := h.apart
  high := h.high
  aligned := h.aligned

theorem stop_of_overflow (h : cxt.overflow = true) : { cxt with overflow := true } = cxt := by
  rw [← h]

theorem frame_store (bs : List UInt8) (h : Frame start cxt) {off : ℕ} (hlow : start.pBegin ≤ off)
    (hhigh : off + bs.length ≤ start.pstrBegin) (p pstr : ℕ) :
    Frame start { cxt with mem := store cxt.mem off bs, p := p, pstr := pstr } where
  bph := h.bph
  pBegin := h.pBegin
  pstrBegin := h.pstrBegin
  mem k hk := by
    rw [← h.mem k hk]
    dsimp only
    rcases hk with hk | hk
    · exact store_of_lt _ _ (by omega)
    · exact store_of_le _ (by omega)

theorem Within.put (h : Within start cxt) (hfills : Fills cxt cxt' bs) (hmod : bs.length % 4 = 0)
    (hstop : cxt.overflow = true ∨ cxt.pstr < cxt.p + bs.length → cxt' = { cxt with overflow := true }) :
    Within start cxt' := by
  by_cases hfull : cxt.overflow = true ∨ cxt.pstr < cxt.p + bs.length
  · rw [hstop hfull]
    exact h.stop
  obtain ⟨hover, hroom⟩ := not_or.mp hfull
  rw [hfills (Bool.eq_false_iff.mpr hover) (not_lt.mp hroom)]
  have hlow := h.low (Bool.eq_false_iff.mpr hover)
  have hhigh := h.high
  have haligned := h.aligned
  refine ⟨frame_store bs h.frame hlow (by omega) _ _, fun _ ↦ ?_, ?_, hhigh, ?_⟩
  · exact hlow.trans (Nat.le_add_right _ _)
  · exact not_lt.mp hroom
  · dsimp only
    omega

theorem Within.putWord (h : Within start cxt) (v : ℕ) : Within start (ftPutWord cxt v) := by
  refine h.put (fills_word cxt v) (by rw [be32_length]) fun hfull ↦ ?_
  rw [ftPutWord]
  by_cases hover : cxt.overflow = true
  · rw [if_pos hover, stop_of_overflow hover]
  · rw [if_neg hover]
    exact if_pos (hfull.resolve_left hover)

theorem Within.putBin (h : Within start cxt) (data : List UInt8) :
    Within start (ftPutBin cxt data) := by
  have hlen : (padded data).length = align data.length 4 := padded_length data
  refine h.put (fills_bin data h.aligned) (by rw [hlen, align_mod]) fun hfull ↦ ?_
  rw [hlen, ← align_add _ h.aligned] at hfull
  rw [ftPutBin]
  by_cases hover : cxt.overflow = true
  · rw [if_pos hover, stop_of_overflow hover]
  · rw [if_neg hover]
    exact if_pos (hfull.resolve_left hover)

theorem Within.putProp (h : Within start cxt) (off : ℕ) (data : List UInt8) :
    Within start (putProp cxt off data) :=
  (((h.putWord _).putWord _).putWord _).putBin data

theorem Within.prop (h : Within start cxt) {name : CStr} {data : List UInt8}
    (hprop : ftProp cxt name data = some cxt') : Within start cxt' := by
  rw [ftProp] at hprop
  split_ifs at hprop with hover
  · cases hprop
    exact h
  obtain ⟨r, -, hprop⟩ := Option.bind_eq_some_iff.mp hprop
  cases r with
  | some off =>
    cases hprop
    exact h.putProp off data
  | none =>
    dsimp only at hprop
    split_ifs at hprop with hroom
    · cases hprop
      exact h.stop
    · cases hprop
      have hroom' : cxt.p + 12 + data.length + (name.length + 1) ≤ cxt.pstr := not_lt.mp hroom
      have hlow := h.low (Bool.eq_false_iff.mpr hover)
      have hhigh := h.high
      have hlen : (name ++ [0]).length = name.length + 1 := List.length_append
      have hroom : cxt.p ≤ cxt.pstr - (name.length + 1) := by omega
      have hframe := frame_store (name ++ [0]) h.frame (hlow.trans hroom) (by omega) cxt.p
        (cxt.pstr - (name.length + 1))
      exact Within.putProp ⟨hframe, fun _ ↦ hlow, hroom, (Nat.sub_le _ _).trans hhigh, h.aligned⟩ _ data

theorem Within.call (h : Within start cxt) {call : FtCall} (hcall : cxt.call call = some cxt') :
    Within start cxt' := by
  cases call with
  | beginNode name =>
    cases hcall
    exact (h.putWord _).putBin _
  | endNode =>
    cases hcall
    exact h.putWord _
  | nop =>
    cases hcall
    exact h.putWord _
  | prop name data => exact h.prop hcall

theorem Within.of_built {es : List (FtCall × ℕ)} {table : List CStr} (h : Laid cxt es table)
    (hframe : Frame start cxt) : Within start cxt where
  frame := hframe
  low _ := by
    rw [h.p_eq, hframe.pBegin]
    exact Nat.le_add_right _ _
  apart := h.p_le
  high := by
    rw [← hframe.pstrBegin, ← h.pstr_eq]
    exact Nat.le_add_right _ _
  aligned := h.p_mod

end UBoot.Common.FtWithin
