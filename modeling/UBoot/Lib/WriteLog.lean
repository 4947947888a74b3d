import UBoot.Lib.Memory

namespace UBoot.Lib.WriteLog

open Memory

/-- A buffer that is filled from its start on, with the addresses stored to so far. The writer keeps
a count of the bytes that have room; nothing ties it to the size of the buffer. -/
structure Sink where
  buf : Mem
  stored : List ℕ
  pos : ℕ
  room : ℕ

/-- Bytes that the writer does not count. -/
def Sink.store (s : Sink) (bs : List UInt8) : Sink :=
  { s with buf := Memory.store s.buf s.pos bs, stored := s.stored ++ List.range' s.pos bs.length }

def Sink.put (s : Sink) (bs : List UInt8) : Sink :=
  { s.store bs with pos := s.pos + bs.length, room := s.room - bs.length }

/-- The writer stops at a fragment without room. -/
def emit (s : Sink) (bs : List UInt8) : Except Sink Sink :=
  if s.room < bs.length then .error s else .ok (s.put bs)

def emitAll (fragments : List (List UInt8)) (s : Sink) : Except Sink Sink := fragments.foldlM emit s

variable {s : Sink}

theorem put_nil : s.put [] = s := by
  have hbuf : Memory.store s.buf s.pos [] = s.buf := by
    funext k
    rw [Memory.store]
    split <;> rfl
  simp [Sink.put, Sink.store, hbuf]

theorem put_put (a b : List UInt8) : (s.put a).put b = s.put (a ++ b) := by
  simp only [Sink.put, Sink.store, store_store, List.length_append, Nat.add_assoc, Nat.sub_sub,
    List.append_assoc]
  rw [List.range'_append_1]

theorem emitAll_of_le {fragments : List (List UInt8)} (h : fragments.flatten.length ≤ s.room) :
    emitAll fragments s = .ok (s.put fragments.flatten) := by
  induction fragments generalizing s with
  | nil =>
    rw [List.flatten_nil, put_nil]
    rfl
  | cons bs fragments ih =>
    rw [List.flatten_cons, List.length_append] at h
    have hroom : fragments.flatten.length ≤ (s.put bs).room := by
      change _ ≤ s.room - bs.length
      omega
    rw [emitAll, List.foldlM_cons, emit, if_neg (by omega), List.flatten_cons, ← put_put]
    exact ih hroom

/-- What is stored when the writer stops: the fragments in front of the first without room. -/
theorem emitAll_of_lt (s : Sink) (fragments : List (List UInt8))
    (h : s.room < fragments.flatten.length) : ∃ n, emitAll fragments s = .error (s.put (fragments.take n).flatten) ∧
      (fragments.take n).flatten.length ≤ s.room ∧
      s.room < (fragments.take (n + 1)).flatten.length := by
  induction fragments generalizing s with
  | nil => exact absurd h (Nat.not_lt_zero _)
  | cons bs fragments ih =>
    rw [List.flatten_cons, List.length_append] at h
    by_cases hbs : s.room < bs.length
    · refine ⟨0, ?_, Nat.zero_le _, ?_⟩
      · rw [emitAll, List.foldlM_cons, emit, if_pos hbs, List.take_zero, List.flatten_nil, put_nil]
        rfl
      · simpa using hbs
    · have hroom : (s.put bs).room = s.room - bs.length := rfl
      obtain ⟨n, hrun, hle, hlt⟩ := ih (s.put bs) (by omega)
      refine ⟨n + 1, ?_, ?_, ?_⟩
      · rw [emitAll, List.foldlM_cons, emit, if_neg hbs, List.take_succ_cons, List.flatten_cons,
          ← put_put]
        exact hrun
      · rw [List.take_succ_cons, List.flatten_cons, List.length_append]
        omega
      · rw [List.take_succ_cons, List.flatten_cons, List.length_append]
        omega

/-- The lengths of the leading fragments grow. -/
theorem length_take_le (fragments : List (List UInt8)) {m n : ℕ} (h : m ≤ n) :
    (fragments.take m).flatten.length ≤ (fragments.take n).flatten.length := by
  have hprefix : fragments.take m <+: fragments.take n := List.take_prefix_take_left h
  obtain ⟨rest, hrest⟩ := hprefix
  rw [← hrest, List.flatten_append, List.length_append]
  exact Nat.le_add_right _ _

end UBoot.Lib.WriteLog
