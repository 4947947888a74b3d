import Mathlib.Data.Bool.Basic
import Mathlib.Data.List.Basic

namespace UBoot.Lib.ShiftRegister

/-- A register of `w` bits that is shifted by one with each bit that comes in. `bit a i` is the bit that
is shifted out after `i` others. It is added to the one that comes in, and the sum is fed back at the taps. -/
structure Register (S : Type*) (w : ℕ) where
  bit : S → ℕ → Bool
  step : S → Bool → S
  tap : ℕ → Bool
  zero : S
  bit_zero : ∀ i, bit zero i = false
  bit_of_le : ∀ a i, w ≤ i → bit a i = false
  ext : ∀ a b, (∀ i < w, bit a i = bit b i) → a = b
  bit_step : ∀ a x, ∀ i < w, bit (step a x) i = (bit a (i + 1) ^^ ((bit a 0 ^^ x) && tap i))
  tap_last : ∀ i, i + 1 = w → tap i = true

/-- A burst of errors in a string: outside of `w` bits in a row nothing has changed. -/
def Burst (w : ℕ) (xs ys : List Bool) : Prop :=
  xs.length = ys.length ∧ ∃ k, xs.take k = ys.take k ∧ xs.drop (k + w) = ys.drop (k + w)

section Burst

variable {w : ℕ} {xs ys : List Bool}

theorem Burst.take (h : Burst w xs ys) (n : ℕ) : Burst w (xs.take n) (ys.take n) := by
  obtain ⟨hlength, k, hfront, hback⟩ := h
  refine ⟨by rw [List.length_take, List.length_take, hlength], k, ?_, ?_⟩
  · rw [List.take_take, Nat.min_comm, ← List.take_take, hfront, List.take_take, Nat.min_comm, ← List.take_take]
  · rw [List.drop_take, List.drop_take, hback]

theorem Burst.drop (h : Burst w xs ys) (n : ℕ) : Burst w (xs.drop n) (ys.drop n) := by
  obtain ⟨hlength, k, hfront, hback⟩ := h
  refine ⟨by rw [List.length_drop, List.length_drop, hlength], k - n, ?_, ?_⟩
  · have hcut := congrArg (List.drop n) hfront
    rwa [List.drop_take, List.drop_take] at hcut
  · have hcut := congrArg (List.drop (n + (k - n) + w - (k + w))) hback
    rw [List.drop_drop, List.drop_drop] at hcut ⊢
    have hk : k + w + (n + (k - n) + w - (k + w)) = n + (k - n + w) := by omega
    rwa [hk] at hcut

end Burst

namespace Register

variable {S : Type*} {w : ℕ} (r : Register S w) {a b : S} {x y : Bool} {xs ys : List Bool}

def run (a : S) (xs : List Bool) : S := xs.foldl r.step a

@[simp] theorem run_nil (a : S) : r.run a [] = a := rfl

@[simp] theorem run_cons (a : S) (x : Bool) (xs : List Bool) : r.run a (x :: xs) = r.run (r.step a x) xs := rfl

theorem run_append (a : S) (xs ys : List Bool) : r.run a (xs ++ ys) = r.run (r.run a xs) ys := List.foldl_append

/-- Two registers that differ at most in the `n` bits that are shifted out first. -/
def Near (n : ℕ) (a b : S) : Prop := ∀ i, n ≤ i → r.bit a i = r.bit b i

theorem near_zero (h : r.Near 0 a b) : a = b := r.ext a b fun i _ ↦ h i (Nat.zero_le i)

/-- The bit that is fed back comes out at the far end. -/
theorem feedback_of_near {n : ℕ} (hn : n < w) (h : r.Near n (r.step a x) (r.step b y)) :
    (r.bit a 0 ^^ x) = (r.bit b 0 ^^ y) := by
  have hlast := h (w - 1) (by omega)
  rw [r.bit_step a x _ (by omega), r.bit_step b y _ (by omega), r.tap_last _ (by omega),
    r.bit_of_le a _ (by omega), r.bit_of_le b _ (by omega)] at hlast
  simpa using hlast

theorem near_of_step {n : ℕ} (hn : n < w) (h : r.Near n (r.step a x) (r.step b y)) : r.Near (n + 1) a b := by
  intro i hi
  obtain ⟨i, rfl⟩ : ∃ k, i = k + 1 := ⟨i - 1, by omega⟩
  rcases Nat.lt_or_ge i w with hlt | hge
  · have hbit := h i (by omega)
    rw [r.bit_step a x i hlt, r.bit_step b y i hlt, r.feedback_of_near hn h] at hbit
    exact Bool.xor_left_inj.mp hbit
  · rw [r.bit_of_le a _ (by omega), r.bit_of_le b _ (by omega)]

theorem step_injective (h : r.step a x = r.step b x) : a = b := by
  rcases Nat.eq_zero_or_pos w with rfl | hw
  · exact r.ext a b fun i hi ↦ absurd hi (Nat.not_lt_zero i)
  have hnear : r.Near 0 (r.step a x) (r.step b x) := fun i _ ↦ by rw [h]
  apply r.near_zero
  intro i _
  rcases Nat.eq_zero_or_pos i with rfl | hi
  · exact Bool.xor_left_inj.mp (r.feedback_of_near hw hnear)
  · exact r.near_of_step hw hnear i hi

/-- The register is never merged with another one. -/
theorem run_injective (xs : List Bool) : Function.Injective fun a ↦ r.run a xs := by
  induction xs with
  | nil => exact fun _ _ h ↦ h
  | cons x xs ih => exact fun a b h ↦ r.step_injective (ih h)

theorem near_of_run (hlength : xs.length = ys.length) (hw : xs.length ≤ w) (h : r.run a xs = r.run b ys) :
    r.Near xs.length a b := by
  induction xs generalizing ys a b with
  | nil =>
    obtain rfl := List.length_eq_zero_iff.mp hlength.symm
    obtain rfl : a = b := h
    exact fun _ _ ↦ rfl
  | cons x xs ih =>
    cases ys with
    | nil => cases hlength
    | cons y ys =>
      rw [List.length_cons] at hw ⊢
      exact r.near_of_step (by omega) (ih (Nat.succ.inj hlength) (by omega) h)

/-- The register tells any two strings apart that are not longer than itself. -/
theorem run_right_injective (hlength : xs.length = ys.length) (hw : xs.length ≤ w) (h : r.run a xs = r.run a ys) :
    xs = ys := by
  induction xs generalizing ys a with
  | nil => exact (List.length_eq_zero_iff.mp hlength.symm).symm
  | cons x xs ih =>
    cases ys with
    | nil => cases hlength
    | cons y ys =>
      rw [List.length_cons] at hw
      have hrest : xs.length = ys.length := Nat.succ.inj hlength
      have hnear := r.near_of_run hrest (by omega) h
      obtain rfl : x = y := Bool.xor_right_inj.mp (r.feedback_of_near (by omega) hnear)
      rw [ih hrest (by omega) h]

/-- A burst that fits into the register never goes unnoticed. -/
theorem run_burst (h : Burst w xs ys) (hrun : r.run a xs = r.run a ys) : xs = ys := by
  obtain ⟨hlength, k, hfront, hback⟩ := h
  have hx := List.take_append_drop w (xs.drop k)
  have hy := List.take_append_drop w (ys.drop k)
  rw [List.drop_drop] at hx hy
  rw [← List.take_append_drop k xs, ← List.take_append_drop k ys, ← hx, ← hy, hfront, hback] at hrun ⊢
  simp only [r.run_append] at hrun
  have hshort : ((xs.drop k).take w).length = ((ys.drop k).take w).length := by
    simp only [List.length_take, List.length_drop, hlength]
  rw [r.run_right_injective hshort (List.length_take_le _ _) (r.run_injective _ hrun)]

/-- What a string does to a register is what it does, with the bits of the register added, to an empty
one; behind it the rest of the register is shifted down. -/
theorem bit_run (a : S) (xs : List Bool) (i : ℕ) :
    r.bit (r.run a xs) i = (r.bit a (i + xs.length) ^^
      r.bit (r.run r.zero (xs.mapIdx fun k x ↦ r.bit a k ^^ x)) i) := by
  induction hn : xs.length generalizing a xs with
  | zero =>
    obtain rfl := List.length_eq_zero_iff.mp hn
    simp [r.bit_zero]
  | succ n ih =>
    obtain ⟨x, xs, rfl⟩ := List.exists_cons_of_length_eq_add_one hn
    have hn : xs.length = n := Nat.succ.inj hn
    have hstep (c : S) (z : Bool) (k : ℕ) : r.bit (r.step c z) k =
        (r.bit c (k + 1) ^^ ((r.bit c 0 ^^ z) && (r.tap k && decide (k < w)))) := by
      rcases Nat.lt_or_ge k w with hk | hk
      · rw [r.bit_step c z k hk, decide_eq_true hk, Bool.and_true]
      · rw [r.bit_of_le _ _ hk, r.bit_of_le _ _ (Nat.le_succ_of_le hk), decide_eq_false (by omega)]
        simp
    have hsame : (xs.mapIdx fun k y ↦ r.bit (r.step a x) k ^^ y) =
        (xs.mapIdx fun k y ↦ r.bit a (k + 1) ^^ y).mapIdx
          fun k y ↦ r.bit (r.step r.zero (r.bit a 0 ^^ x)) k ^^ y := by
      rw [List.mapIdx_mapIdx]
      congr 1
      funext k y
      simp only [hstep, r.bit_zero, Bool.false_xor, Function.comp_apply]
      rw [Bool.xor_comm (r.bit a (k + 1)), Bool.xor_assoc]
    rw [run_cons, ih _ _ hn, List.mapIdx_cons, run_cons, ih (r.step r.zero _) _ (List.length_mapIdx.trans hn), hsame,
      hstep a, hstep r.zero]
    simp only [r.bit_zero, Bool.false_xor, Nat.add_assoc, Bool.xor_assoc]

theorem run_zero (n : ℕ) : r.run r.zero (List.replicate n false) = r.zero := by
  have hstep : r.step r.zero false = r.zero := by
    apply r.ext
    intro i hi
    rw [r.bit_step _ _ i hi, r.bit_zero, r.bit_zero, r.bit_zero]
    rfl
  induction n with
  | zero => rfl
  | succ n ih => rw [List.replicate_succ, run_cons, hstep, ih]

/-- The bits of the register itself are the ones that empty it. -/
theorem run_eq_zero_iff (a : S) (hlength : xs.length = w) :
    r.run a xs = r.zero ↔ xs = (List.range w).map (r.bit a) := by
  have hself : r.run a ((List.range w).map (r.bit a)) = r.zero := by
    apply r.ext
    intro i _
    have hzero : ((List.range w).map (r.bit a)).mapIdx (fun k x ↦ r.bit a k ^^ x) = List.replicate w false := by
      apply List.ext_getElem
      · simp
      · intro k hk _
        simp
    have hlength : ((List.range w).map (r.bit a)).length = w := by simp
    rw [r.bit_run, hzero, r.run_zero, r.bit_zero, hlength, r.bit_of_le a (i + w) (Nat.le_add_left w i)]
    rfl
  refine ⟨fun h ↦ r.run_right_injective ?_ (Nat.le_of_eq hlength) (h.trans hself.symm), fun h ↦ h ▸ hself⟩
  rw [hlength, List.length_map, List.length_range]

end Register

section Bits

variable {α : Type*} (bit : α → ℕ → Bool) (n : ℕ) (l : List α)

/-- The `n` bits of each of some words, one behind the other. -/
def bits : List Bool := l.flatMap fun b ↦ (List.range n).map (bit b)

@[simp] theorem bits_nil : bits bit n [] = [] := rfl

@[simp] theorem bits_cons (b : α) : bits bit n (b :: l) = (List.range n).map (bit b) ++ bits bit n l := rfl

theorem bits_append (l' : List α) : bits bit n (l ++ l') = bits bit n l ++ bits bit n l' := List.flatMap_append

@[simp] theorem bits_length : (bits bit n l).length = n * l.length := by
  induction l with
  | nil => rfl
  | cons b l ih => rw [bits_cons, List.length_append, ih, List.length_map, List.length_range, List.length_cons,
      Nat.mul_succ, Nat.add_comm]

theorem bits_drop (k : ℕ) : bits bit n (l.drop k) = (bits bit n l).drop (n * k) := by
  induction l generalizing k with
  | nil => rw [List.drop_nil, bits_nil, List.drop_nil]
  | cons b l ih =>
    cases k with
    | zero => rfl
    | succ k =>
      rw [List.drop_succ_cons, ih, bits_cons, Nat.mul_succ, Nat.add_comm, ← List.drop_drop, List.drop_left']
      rw [List.length_map, List.length_range]

theorem bits_take (k : ℕ) : bits bit n (l.take k) = (bits bit n l).take (n * k) := by
  have h := congrArg (List.take (n * k)) (bits_append bit n (l.take k) (l.drop k))
  rw [List.take_append_drop] at h
  rw [h]
  rcases Nat.le_total k l.length with hk | hk
  · rw [List.take_left']
    rw [bits_length, List.length_take, Nat.min_eq_left hk]
  · rw [List.take_of_length_le hk, List.drop_of_length_le hk, bits_nil, List.append_nil, List.take_of_length_le]
    rw [bits_length]
    exact Nat.mul_le_mul_left n hk

variable {bit n} in
theorem bits_injective (hbit : ∀ a b, (∀ i < n, bit a i = bit b i) → a = b) (hn : 0 < n) :
    Function.Injective (bits bit n) := by
  intro l
  induction l with
  | nil =>
    intro l' h
    have hlength := congrArg List.length h
    rw [bits_length, bits_length, List.length_nil, Nat.mul_zero] at hlength
    exact (List.length_eq_zero_iff.mp ((Nat.mul_eq_zero.mp hlength.symm).resolve_left (by omega))).symm
  | cons b l ih =>
    intro l' h
    cases l' with
    | nil =>
      have hlength := congrArg List.length h
      rw [bits_length, bits_length, List.length_nil, Nat.mul_zero] at hlength
      exact absurd hlength (Nat.mul_ne_zero (by omega) (Nat.succ_ne_zero _))
    | cons b' l' =>
      obtain ⟨hword, hrest⟩ := List.append_inj h (by rw [List.length_map, List.length_map])
      have hb : b = b' := hbit b b' fun i hi ↦ by
        have hget := congrArg (fun l ↦ l[i]?) hword
        simpa [hi] using hget
      rw [hb, ih hrest]

end Bits

section BitVec

variable {w : ℕ}

/-- The register that is shifted to the right: the low bit comes out. -/
def right (poly : BitVec w) (hpoly : ∀ i, i + 1 = w → poly.getLsbD i = true) : Register (BitVec w) w where
  bit a i := a.getLsbD i
  step a x := if a.getLsbD 0 ^^ x then (a >>> 1) ^^^ poly else a >>> 1
  tap i := poly.getLsbD i
  zero := 0#w
  bit_zero _ := BitVec.getLsbD_zero
  bit_of_le a _ h := BitVec.getLsbD_of_ge a _ h
  ext _ _ h := BitVec.eq_of_getLsbD_eq h
  bit_step a x i _ := by
    cases (a.getLsbD 0 ^^ x) <;> simp [Nat.add_comm 1 i]
  tap_last := hpoly

/-- The register that is shifted to the left: the high bit comes out. -/
def left (poly : BitVec w) (hpoly : ∀ i, i + 1 = w → poly.getMsbD i = true) : Register (BitVec w) w where
  bit a i := a.getMsbD i
  step a x := if a.getMsbD 0 ^^ x then (a <<< 1) ^^^ poly else a <<< 1
  tap i := poly.getMsbD i
  zero := 0#w
  bit_zero _ := BitVec.getMsbD_zero
  bit_of_le a _ h := BitVec.getMsbD_of_ge a _ h
  ext _ _ h := BitVec.eq_of_getMsbD_eq h
  bit_step a x i _ := by
    cases (a.getMsbD 0 ^^ x) <;> simp [BitVec.getMsbD_shiftLeft]
  tap_last := hpoly

end BitVec

end UBoot.Lib.ShiftRegister
