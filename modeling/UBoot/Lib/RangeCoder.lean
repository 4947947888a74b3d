import Mathlib.Data.Nat.Digits.Lemmas

namespace UBoot.Lib.RangeCoder

/-- The number with the given digits to base 256, the first one most significant. -/
def value (w : List UInt8) : ℕ := Nat.ofDigits 256 (w.reverse.map UInt8.toNat)

@[simp] theorem value_nil : value [] = 0 := rfl

theorem value_append (w w' : List UInt8) :
    value (w ++ w') = value w * 256 ^ w'.length + value w' := by
  rw [value, List.reverse_append, List.map_append, Nat.ofDigits_append, List.length_map,
    List.length_reverse, value, value]
  ring

@[simp] theorem value_singleton (x : UInt8) : value [x] = x.toNat := by
  simp [value]

theorem value_cons (x : UInt8) (w : List UInt8) :
    value (x :: w) = x.toNat * 256 ^ w.length + value w := by
  rw [← List.singleton_append, value_append, value_singleton]

theorem value_lt (w : List UInt8) : value w < 256 ^ w.length := by
  have hdigits : ∀ d ∈ w.reverse.map UInt8.toNat, d < 254 + 2 := by
    intro d hd
    obtain ⟨x, -, rfl⟩ := List.mem_map.mp hd
    exact x.toNat_lt
  have hlt := Nat.ofDigits_lt_base_pow_length' hdigits
  rwa [List.length_map, List.length_reverse] at hlt

/-- Ranges of at least `top` are wide enough for the next decision. -/
def top : ℕ := 16777216

/-- How a range is shared between the outcomes of a decision of some kind, the lower part for
`false`, and what is learned from the outcome. -/
structure Model (σ κ : Type) where
  zero : σ → κ → ℕ → ℕ
  one : σ → κ → ℕ → ℕ
  learn : σ → κ → Bool → σ

namespace Model

variable {σ κ : Type} (M : Model σ κ)

/-- The length of the part for an outcome. -/
def size (s : σ) (k : κ) (r : ℕ) (b : Bool) : ℕ := if b then M.one s k r else M.zero s k r

/-- Where that part begins. -/
def start (s : σ) (k : κ) (r : ℕ) (b : Bool) : ℕ := if b then M.zero s k r else 0

/-- A range below `top` is counted in units 256 times smaller. -/
def scale (r : ℕ) : ℕ := if r < top then r * 256 else r

def digits (r : ℕ) : ℕ := if r < top then 1 else 0

/-- The point of a range of length `r` that a list of decisions names, and the number of digits
to base 256 that it takes. -/
def locate : σ → ℕ → List (κ × Bool) → ℕ × ℕ
  | _, _, [] => (0, 0)
  | s, r, (k, b) :: ds =>
    let p := locate (M.learn s k b) (scale (M.size s k r b)) ds
    (M.start s k r b * 256 ^ (p.2 + digits (M.size s k r b)) + p.1,
      p.2 + digits (M.size s k r b))

/-- The models and kinds of decisions for which both parts of a range stay wide enough. -/
structure Fair (ok : σ → Prop) (kinds : κ → Prop) : Prop where
  learn : ∀ {s k}, ok s → ∀ b, ok (M.learn s k b)
  zero : ∀ {s k r}, ok s → kinds k → top ≤ r → 65536 ≤ M.zero s k r
  one : ∀ {s k r}, ok s → kinds k → top ≤ r → 65536 ≤ M.one s k r
  sum : ∀ {s k r}, ok s → kinds k → top ≤ r → M.zero s k r + M.one s k r ≤ r

theorem scale_eq (r : ℕ) : scale r = r * 256 ^ digits r := by
  rw [scale, digits]
  split_ifs <;> simp

theorem top_le_scale {r : ℕ} (h : 65536 ≤ r) : top ≤ scale r := by
  rw [scale]
  split_ifs with hr
  · rw [top]
    omega
  · omega

variable {M} {ok : σ → Prop} {kinds : κ → Prop} {s : σ} {r : ℕ}

theorem Fair.size (hM : M.Fair ok kinds) (hs : ok s) {k : κ} (hk : kinds k) (hr : top ≤ r) (b : Bool) :
    65536 ≤ M.size s k r b ∧ M.start s k r b + M.size s k r b ≤ r := by
  have hsum := hM.sum hs hk hr
  have hzero := hM.zero hs hk hr
  have hone := hM.one hs hk hr
  cases b
  · simp only [Model.size, Model.start, Bool.false_eq_true, if_false]
    omega
  · simp only [Model.size, Model.start, if_true]
    omega

/-- The point lies in the range. -/
theorem Fair.locate_lt (hM : M.Fair ok kinds) {ds : List (κ × Bool)} (hds : ∀ d ∈ ds, kinds d.1)
    (hs : ok s) (hr : top ≤ r) : (M.locate s r ds).1 < r * 256 ^ (M.locate s r ds).2 := by
  induction ds generalizing s r with
  | nil =>
    rw [top] at hr
    simp only [locate]
    omega
  | cons d ds ih =>
    obtain ⟨k, b⟩ := d
    obtain ⟨hk, hds⟩ := List.forall_mem_cons.mp hds
    obtain ⟨hwide, hinside⟩ := hM.size (k := k) hs hk hr b
    have hrest := ih hds (hM.learn (k := k) hs b) (top_le_scale hwide)
    simp only [locate]
    generalize M.locate (M.learn s k b) (scale (M.size s k r b)) ds = p at hrest ⊢
    rw [scale_eq, Nat.mul_assoc, ← Nat.pow_add, Nat.add_comm (digits _)] at hrest
    calc M.start s k r b * 256 ^ (p.2 + digits (M.size s k r b)) + p.1
        < M.start s k r b * 256 ^ (p.2 + digits (M.size s k r b)) +
          M.size s k r b * 256 ^ (p.2 + digits (M.size s k r b)) := Nat.add_lt_add_left hrest _
      _ = (M.start s k r b + M.size s k r b) * 256 ^ (p.2 + digits (M.size s k r b)) :=
        (Nat.add_mul ..).symm
      _ ≤ r * 256 ^ (p.2 + digits (M.size s k r b)) := Nat.mul_le_mul_right _ hinside

/-- A decoder that holds `code` and has `w` to read stands before the decisions `ds`. -/
structure Names (M : Model σ κ) (s : σ) (r code : ℕ) (w : List UInt8) (ds : List (κ × Bool)) : Prop where
  length : (M.locate s r ds).2 ≤ w.length
  point : code * 256 ^ (M.locate s r ds).2 + value (w.take (M.locate s r ds).2) = (M.locate s r ds).1

theorem Names.code_lt {code : ℕ} {w : List UInt8} {ds : List (κ × Bool)}
    (h : M.Names s r code w ds) (hM : M.Fair ok kinds) (hds : ∀ d ∈ ds, kinds d.1) (hs : ok s)
    (hr : top ≤ r) : code < r := by
  have hlt := hM.locate_lt hds hs hr
  rw [← h.point] at hlt
  exact Nat.lt_of_mul_lt_mul_right (Nat.lt_of_le_of_lt (Nat.le_add_right _ _) hlt)

section Step

variable {code : ℕ} {w : List UInt8} {k : κ} {b : Bool} {ds : List (κ × Bool)}

/-- The code lies in the part of the outcome. -/
theorem Names.outcome (h : M.Names s r code w ((k, b) :: ds)) (hM : M.Fair ok kinds)
    (hk : kinds k) (hds : ∀ d ∈ ds, kinds d.1) (hs : ok s) (hr : top ≤ r) :
    M.start s k r b ≤ code ∧ code - M.start s k r b < M.size s k r b := by
  obtain ⟨hwide, -⟩ := hM.size hs hk hr b
  have hrest := hM.locate_lt hds (hM.learn (k := k) hs b) (top_le_scale hwide)
  have hpoint := h.point
  have hlength := h.length
  simp only [locate] at hpoint hlength
  generalize M.locate (M.learn s k b) (scale (M.size s k r b)) ds = p at *
  rw [scale_eq, Nat.mul_assoc, ← Nat.pow_add, Nat.add_comm (digits _)] at hrest
  generalize p.2 + digits (M.size s k r b) = n at *
  have hvalue := value_lt (w.take n)
  rw [List.length_take, Nat.min_eq_left hlength] at hvalue
  have hle : M.start s k r b ≤ code := by
    have hlt : M.start s k r b * 256 ^ n < (code + 1) * 256 ^ n := by
      rw [Nat.add_mul]
      omega
    exact Nat.le_of_lt_succ (Nat.lt_of_mul_lt_mul_right hlt)
  refine ⟨hle, ?_⟩
  obtain ⟨c, rfl⟩ := Nat.exists_eq_add_of_le hle
  rw [Nat.add_mul] at hpoint
  rw [Nat.add_sub_cancel_left]
  exact Nat.lt_of_mul_lt_mul_right (Nat.lt_of_le_of_lt (Nat.le_add_right (c * 256 ^ n) _)
    (by omega : c * 256 ^ n + value (w.take n) < M.size s k r b * 256 ^ n))

theorem Names.value_eq (h : M.Names s r code w ((k, b) :: ds)) (hle : M.start s k r b ≤ code) :
    (code - M.start s k r b) * 256 ^ (M.locate s r ((k, b) :: ds)).2 +
        value (w.take (M.locate s r ((k, b) :: ds)).2) =
      (M.locate (M.learn s k b) (scale (M.size s k r b)) ds).1 := by
  have hpoint := h.point
  simp only [locate] at hpoint ⊢
  obtain ⟨c, rfl⟩ := Nat.exists_eq_add_of_le hle
  rw [Nat.add_mul] at hpoint
  rw [Nat.add_sub_cancel_left]
  omega

theorem Names.wide (h : M.Names s r code w ((k, b) :: ds)) (hle : M.start s k r b ≤ code)
    (hsize : top ≤ M.size s k r b) :
    M.Names (M.learn s k b) (M.size s k r b) (code - M.start s k r b) w ds := by
  have hvalue := h.value_eq hle
  have hlength := h.length
  have hscale : scale (M.size s k r b) = M.size s k r b := by
    rw [scale, if_neg (by omega)]
  have hdigits : digits (M.size s k r b) = 0 := by
    rw [digits, if_neg (by omega)]
  simp only [locate, hscale, hdigits, Nat.add_zero] at hvalue hlength
  exact ⟨hlength, hvalue⟩

theorem Names.narrow (h : M.Names s r code w ((k, b) :: ds)) (hle : M.start s k r b ≤ code)
    (hsize : M.size s k r b < top) : ∃ x w', w = x :: w' ∧
      M.Names (M.learn s k b) (M.size s k r b * 256) ((code - M.start s k r b) * 256 + x.toNat) w' ds := by
  have hvalue := h.value_eq hle
  have hlength := h.length
  have hscale : scale (M.size s k r b) = M.size s k r b * 256 := by
    rw [scale, if_pos hsize]
  have hdigits : digits (M.size s k r b) = 1 := by
    rw [digits, if_pos hsize]
  simp only [locate, hscale, hdigits] at hvalue hlength
  cases w with
  | nil => exact absurd hlength (by simp)
  | cons x w =>
    rw [List.length_cons] at hlength
    refine ⟨x, w, rfl, Nat.le_of_succ_le_succ hlength, ?_⟩
    rw [List.take_succ_cons, value_cons, List.length_take,
      Nat.min_eq_left (Nat.le_of_succ_le_succ hlength), Nat.pow_succ] at hvalue
    rw [← hvalue]
    ring

end Step

end Model

end UBoot.Lib.RangeCoder
