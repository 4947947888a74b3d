import Mathlib.Data.List.Basic

namespace UBoot.Lib.NorFlash

/-- The cells of an erased area. -/
def erased (n : ℕ) : List UInt8 := List.replicate n 0xff

/-- Erasing sets every bit of an area. -/
def erase (cells : List UInt8) : List UInt8 := erased cells.length

/-- Programming `buf` from the first cell on only clears bits. -/
def program : List UInt8 → List UInt8 → List UInt8
  | c :: cells, b :: buf => (c &&& b) :: program cells buf
  | cells, [] => cells
  | [], _ :: _ => []

@[simp] theorem program_nil (cells : List UInt8) : program cells [] = cells := by
  cases cells <;> rfl

@[simp] theorem program_length (cells buf : List UInt8) :
    (program cells buf).length = cells.length := by
  induction cells generalizing buf with
  | nil => cases buf <;> rfl
  | cons c cells ih =>
    cases buf with
    | nil => rfl
    | cons b buf => simp [program, ih]

theorem and_erased (b : UInt8) : 0xff &&& b = b := by
  apply UInt8.toNat_inj.mp
  simpa [Nat.and_comm] using Nat.and_two_pow_sub_one_of_lt_two_pow (n := 8) b.toNat_lt

theorem program_erased {n : ℕ} {buf : List UInt8} (h : buf.length ≤ n) :
    program (erased n) buf = buf ++ erased (n - buf.length) := by
  induction buf generalizing n with
  | nil => simp
  | cons b buf ih =>
    obtain _ | n := n
    · simp at h
    · have hr := ih (n := n) (by simpa using h)
      simp only [erased, List.replicate_succ, program, and_erased] at hr ⊢
      simp [hr]

theorem program_erase {cells buf : List UInt8} (h : buf.length = cells.length) :
    program (erase cells) buf = buf := by
  rw [erase, program_erased (Nat.le_of_eq h), h]
  simp [erased]

end UBoot.Lib.NorFlash
