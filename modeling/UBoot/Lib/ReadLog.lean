import UBoot.Lib.Memory

namespace UBoot.Lib.ReadLog

open Memory

/-- A computation that reads memory and logs the addresses it reads; what it does depends on the
bytes at these addresses only. -/
structure Reader (α : Type) where
  run : Mem → α × List ℕ
  sound : ∀ m m', (∀ i ∈ (run m).2, m' i = m i) → run m' = run m

namespace Reader

variable {α β : Type}

def value (x : Reader α) (m : Mem) : α := (x.run m).1

/-- The addresses read. -/
def reads (x : Reader α) (m : Mem) : List ℕ := (x.run m).2

protected def pure (a : α) : Reader α where
  run _ := (a, [])
  sound _ _ _ := rfl

protected def bind (x : Reader α) (f : α → Reader β) : Reader β where
  run m := ((f (x.value m)).value m, x.reads m ++ (f (x.value m)).reads m)
  sound m m' h := by
    have hx : x.run m' = x.run m :=
      x.sound m m' fun i hi ↦ h i (List.mem_append_left _ hi)
    have hf : (f (x.value m)).run m' = (f (x.value m)).run m :=
      (f (x.value m)).sound m m' fun i hi ↦ h i (List.mem_append_right _ hi)
    simp only [value, reads, hx]
    simp only [value] at hf
    rw [hf]

instance : Monad Reader where
  pure := Reader.pure
  bind := Reader.bind

/-- Read one byte. -/
def read (i : ℕ) : Reader UInt8 where
  run m := (m i, [i])
  sound m m' h := by rw [h i (List.mem_singleton_self i)]

/-- Read `n` bytes. -/
def readBytes (off n : ℕ) : Reader (List UInt8) where
  run m := (bytes m off n, (List.range n).map (off + ·))
  sound m m' h := by
    have hbytes : bytes m' off n = bytes m off n := by
      apply List.map_congr_left
      intro k hk
      exact h _ (List.mem_map_of_mem hk)
    rw [hbytes]

/-- Read a big-endian 16-bit number. -/
def read16 (off : ℕ) : Reader ℕ where
  run m := (load16 m off, [off, off + 1])
  sound m m' h := by
    rw [load16, load16, h off (by simp), h (off + 1) (by simp)]

/-- Read a big-endian 32-bit number. -/
def read32 (off : ℕ) : Reader ℕ where
  run m := (load32 m off, [off, off + 1, off + 2, off + 3])
  sound m m' h := by
    have hload : load32 m' off = load32 m off := by
      refine load32_congr fun k hk hlt ↦ h k ?_
      simp only [List.mem_cons]
      omega
    rw [hload]

variable (m : Mem)

-- The proofs stand in parentheses for `simp` to write out its steps: the kernel would compare a
-- whole reader with its value by evaluation.
@[simp] theorem value_pure (a : α) : (pure a : Reader α).value m = a := (rfl)

@[simp] theorem reads_pure (a : α) : (pure a : Reader α).reads m = [] := rfl

@[simp] theorem value_bind (x : Reader α) (f : α → Reader β) :
    (x >>= f).value m = (f (x.value m)).value m := (rfl)

@[simp] theorem reads_bind (x : Reader α) (f : α → Reader β) :
    (x >>= f).reads m = x.reads m ++ (f (x.value m)).reads m := (rfl)

@[simp] theorem value_read (i : ℕ) : (read i).value m = m i := rfl

@[simp] theorem reads_read (i : ℕ) : (read i).reads m = [i] := rfl

@[simp] theorem value_read16 (off : ℕ) : (read16 off).value m = load16 m off := (rfl)

@[simp] theorem value_read32 (off : ℕ) : (read32 off).value m = load32 m off := (rfl)

@[simp] theorem value_readBytes (off n : ℕ) : (readBytes off n).value m = bytes m off n := rfl

theorem value_ite {c : Prop} [Decidable c] (x y : Reader α) :
    (if c then x else y).value m = if c then x.value m else y.value m := apply_ite (·.value m) c x y

/-- All reads are below `len`. -/
def Below (x : Reader α) (m : Mem) (len : ℕ) : Prop := ∀ i ∈ x.reads m, i < len

variable {m} {len : ℕ}

@[simp] theorem below_pure (a : α) : (pure a : Reader α).Below m len := by
  simp [Below]

@[simp] theorem below_bind (x : Reader α) (f : α → Reader β) :
    (x >>= f).Below m len ↔ x.Below m len ∧ (f (x.value m)).Below m len := by
  simp [Below, or_imp, forall_and]

theorem below_ite {c : Prop} [Decidable c] (x y : Reader α) :
    (if c then x else y).Below m len ↔ (c → x.Below m len) ∧ (¬ c → y.Below m len) := by
  by_cases hc : c <;> simp [hc]

@[simp] theorem below_read (i : ℕ) : (read i).Below m len ↔ i < len := by
  simp [Below]

@[simp] theorem below_read16 (off : ℕ) : (read16 off).Below m len ↔ off + 2 ≤ len := by
  simp only [Below, reads, read16, List.forall_mem_cons, List.not_mem_nil, false_imp_iff,
    implies_true, and_true]
  omega

@[simp] theorem below_read32 (off : ℕ) : (read32 off).Below m len ↔ off + 4 ≤ len := by
  simp only [Below, reads, read32, List.forall_mem_cons, List.not_mem_nil, false_imp_iff,
    implies_true, and_true]
  omega

theorem below_readBytes (off n : ℕ) :
    (readBytes off n).Below m len ↔ n = 0 ∨ off + n ≤ len := by
  simp only [Below, reads, readBytes, List.mem_map, List.mem_range, forall_exists_index, and_imp,
    forall_apply_eq_imp_iff₂]
  constructor
  · intro h
    cases n with
    | zero => exact Or.inl rfl
    | succ n =>
      have := h n (Nat.lt_succ_self n)
      omega
  · intro h k hk
    omega

theorem value_congr {x : Reader α} {m' : Mem} (h : x.Below m len) (hm : ∀ i < len, m' i = m i) :
    x.value m' = x.value m := by
  rw [value, value, x.sound m m' fun i hi ↦ hm i (h i hi)]

end Reader

end UBoot.Lib.ReadLog
