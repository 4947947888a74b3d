import Mathlib.Data.List.GetD

namespace UBoot.Lib.Memory

/-- The bytes at and behind an address. -/
abbrev Mem := ℕ → UInt8

/-- The `n` bytes from `off` on. -/
def bytes (m : Mem) (off n : ℕ) : List UInt8 := (List.range n).map fun k ↦ m (off + k)

/-- `m` with `bs` stored from `off` on. -/
def store (m : Mem) (off : ℕ) (bs : List UInt8) : Mem :=
  fun k ↦ if off ≤ k then bs.getD (k - off) (m k) else m k

/-- A big-endian 16-bit load. -/
def load16 (m : Mem) (off : ℕ) : ℕ := (m off).toNat * 256 + (m (off + 1)).toNat

/-- A big-endian 32-bit load. -/
def load32 (m : Mem) (off : ℕ) : ℕ := load16 m off * 65536 + load16 m (off + 2)

/-- The low 16 bits of `n` in big-endian order. -/
def be16 (n : ℕ) : List UInt8 := [UInt8.ofNat (n / 256), UInt8.ofNat n]

/-- The low 32 bits of `n` in big-endian order. -/
def be32 (n : ℕ) : List UInt8 := be16 (n / 65536) ++ be16 n

variable (m : Mem)

@[simp] theorem bytes_length (off n : ℕ) : (bytes m off n).length = n := by
  simp [bytes]

@[simp] theorem be16_length (n : ℕ) : (be16 n).length = 2 := rfl

@[simp] theorem be32_length (n : ℕ) : (be32 n).length = 4 := rfl

theorem store_of_lt {off k : ℕ} (bs : List UInt8) (h : k < off) : store m off bs k = m k := by
  rw [store, if_neg (by omega)]

theorem store_of_le {off k : ℕ} {bs : List UInt8} (h : off + bs.length ≤ k) :
    store m off bs k = m k := by
  rw [store, if_pos (by omega), List.getD_eq_default _ _ (by omega)]

theorem store_add {off i : ℕ} {bs : List UInt8} (h : i < bs.length) :
    store m off bs (off + i) = bs[i] := by
  rw [store, if_pos (by omega), Nat.add_sub_cancel_left, List.getD_eq_getElem _ _ h]

theorem store_store (off : ℕ) (bs cs : List UInt8) :
    store (store m off bs) (off + bs.length) cs = store m off (bs ++ cs) := by
  funext k
  rcases Nat.lt_or_ge k off with hlt | hge
  · rw [store_of_lt _ _ (by omega), store_of_lt _ _ hlt, store_of_lt _ _ hlt]
  obtain ⟨i, rfl⟩ := Nat.exists_eq_add_of_le hge
  rcases Nat.lt_or_ge i bs.length with hi | hi
  · rw [store_of_lt _ _ (by omega), store_add _ hi, store_add _ (by rw [List.length_append]; omega),
      List.getElem_append_left hi]
  obtain ⟨j, rfl⟩ := Nat.exists_eq_add_of_le hi
  rcases Nat.lt_or_ge j cs.length with hj | hj
  · rw [← Nat.add_assoc, store_add _ hj, Nat.add_assoc,
      store_add _ (by rw [List.length_append]; omega), List.getElem_append_right (by omega)]
    simp
  · rw [store_of_le _ (by omega), store_of_le _ (by omega),
      store_of_le _ (by rw [List.length_append]; omega)]

theorem bytes_append (off a b : ℕ) :
    bytes m off (a + b) = bytes m off a ++ bytes m (off + a) b := by
  simp [bytes, List.range_add, Nat.add_assoc]

theorem getElem?_bytes {off n i : ℕ} (h : i < n) : (bytes m off n)[i]? = some (m (off + i)) := by
  rw [bytes, List.getElem?_map, List.getElem?_range h, Option.map_some]

theorem take_bytes (off n k : ℕ) : (bytes m off n).take k = bytes m off (min k n) := by
  rw [bytes, ← List.map_take, List.take_range, bytes]

theorem bytes_congr {m m' : Mem} {off n : ℕ} (h : ∀ k, off ≤ k → k < off + n → m k = m' k) :
    bytes m off n = bytes m' off n := by
  apply List.map_congr_left
  intro k hk
  have hlt := List.mem_range.mp hk
  exact h _ (by omega) (by omega)

theorem bytes_getD (l : List UInt8) (d : UInt8) : bytes (fun k ↦ l.getD k d) 0 l.length = l := by
  apply List.ext_getElem
  · simp
  · intro i hi hi'
    simp [bytes, hi']

theorem apply_eq_of_bytes_eq {m m' : Mem} {n k : ℕ} (h : bytes m 0 n = bytes m' 0 n) (hk : k < n) :
    m k = m' k := by
  have hget := congrArg (fun l ↦ l[k]?) h
  simpa [bytes, hk] using hget

theorem store_bytes (m' : Mem) (off n : ℕ) : ∀ k < n, store m 0 (bytes m' off n) k = m' (off + k) := by
  intro k hk
  have hlength : k < (bytes m' off n).length := by
    rw [bytes_length]
    exact hk
  rw [store, if_pos (Nat.zero_le k), Nat.sub_zero, List.getD_eq_getElem _ _ hlength]
  simp only [bytes, List.getElem_map, List.getElem_range]

theorem bytes_store (off : ℕ) (bs : List UInt8) : bytes (store m off bs) off bs.length = bs := by
  apply List.ext_getElem
  · simp
  · intro i hi _
    have hi' : i < bs.length := by simpa using hi
    simp only [bytes, List.getElem_map, List.getElem_range]
    exact store_add m hi'

theorem bytes_store_of_length {off n : ℕ} {bs : List UInt8} (h : bs.length = n) :
    bytes (store m off bs) off n = bs := by
  subst h
  exact bytes_store m off bs

theorem bytes_store_of_le {off k n : ℕ} {bs : List UInt8} (h : off + bs.length ≤ k) :
    bytes (store m off bs) k n = bytes m k n :=
  bytes_congr fun _ hi _ ↦ store_of_le m (Nat.le_trans h hi)

theorem bytes_store_of_lt {off k n : ℕ} (bs : List UInt8) (h : k + n ≤ off) :
    bytes (store m off bs) k n = bytes m k n :=
  bytes_congr fun _ _ hi ↦ store_of_lt m bs (by omega)

theorem bytes_take (off a b : ℕ) : (bytes m off (a + b)).take a = bytes m off a := by
  rw [bytes_append, List.take_left' (bytes_length m off a)]

theorem bytes_drop (off a b : ℕ) : (bytes m off (a + b)).drop a = bytes m (off + a) b := by
  rw [bytes_append, List.drop_left' (bytes_length m off a)]

theorem bytes_store_middle (off i : ℕ) (bs : List UInt8) (j : ℕ) :
    bytes (store m (off + i) bs) off (i + bs.length + j) =
      (bytes m off (i + bs.length + j)).take i ++ bs ++
        (bytes m off (i + bs.length + j)).drop (i + bs.length) := by
  rw [bytes_drop, Nat.add_assoc i, bytes_take, ← Nat.add_assoc, bytes_append, bytes_append,
    bytes_store, bytes_store_of_lt m bs (by omega), bytes_store_of_le m (by omega)]

theorem bytes_eq_append {m : Mem} {off n : ℕ} {a b : List UInt8} (h : bytes m off n = a ++ b) :
    bytes m off a.length = a ∧ bytes m (off + a.length) b.length = b := by
  have hn : n = a.length + b.length := by
    rw [← List.length_append, ← h, bytes_length]
  rw [hn, bytes_append] at h
  exact List.append_inj h (bytes_length m off a.length)

theorem apply_of_bytes {m : Mem} {off n i : ℕ} {l : List UInt8} (h : bytes m off n = l)
    (hi : i < l.length) : m (off + i) = l[i] := by
  subst h
  simp [bytes]

theorem load16_of_bytes {m : Mem} {off n i : ℕ} {l : List UInt8} (h : bytes m off n = l)
    (hi : i + 1 < l.length) : load16 m (off + i) = l[i].toNat * 256 + l[i + 1].toNat := by
  rw [load16, apply_of_bytes h (by omega), Nat.add_assoc, apply_of_bytes h hi]

theorem load16_at {m : Mem} {off n v : ℕ} {a b : List UInt8}
    (h : bytes m off n = a ++ (be16 v ++ b)) : load16 m (off + a.length) = v % 65536 := by
  rw [load16_of_bytes h (by simp only [List.length_append, be16_length]; omega)]
  simp only [List.getElem_append_right (Nat.le_refl a.length),
    List.getElem_append_right (Nat.le_add_right a.length 1), Nat.sub_self,
    Nat.add_sub_cancel_left, be16, List.cons_append, List.getElem_cons_zero,
    List.getElem_cons_succ, UInt8.toNat_ofNat']
  omega

theorem load32_at {m : Mem} {off n v : ℕ} {a b : List UInt8}
    (h : bytes m off n = a ++ (be32 v ++ b)) : load32 m (off + a.length) = v % 4294967296 := by
  have hhigh : load16 m (off + a.length) = v / 65536 % 65536 :=
    load16_at (a := a) (b := be16 v ++ b) (by rw [h, be32, List.append_assoc])
  have hlow : load16 m (off + a.length + 2) = v % 65536 := by
    have h' := load16_at (a := a ++ be16 (v / 65536)) (v := v) (b := b)
      (by rw [h, be32, List.append_assoc, List.append_assoc])
    rwa [List.length_append, be16_length, ← Nat.add_assoc] at h'
  rw [load32, hhigh, hlow]
  omega

theorem load32_head {m : Mem} {off n v : ℕ} {b : List UInt8} (h : bytes m off n = be32 v ++ b) :
    load32 m off = v % 4294967296 ∧ bytes m (off + 4) b.length = b :=
  ⟨load32_at (a := []) h, (bytes_eq_append h).2⟩

theorem load16_lt (off : ℕ) : load16 m off < 65536 := by
  have h₁ := (m off).toNat_lt
  have h₂ := (m (off + 1)).toNat_lt
  simp only [load16]
  omega

theorem load32_congr {m m' : Mem} {off : ℕ} (h : ∀ k, off ≤ k → k < off + 4 → m' k = m k) :
    load32 m' off = load32 m off := by
  rw [load32, load32, load16, load16, load16, load16, h off (by omega) (by omega),
    h (off + 1) (by omega) (by omega), h (off + 2) (by omega) (by omega),
    h (off + 2 + 1) (by omega) (by omega)]

theorem bytes_two (off : ℕ) : bytes m off 2 = be16 (load16 m off) := by
  have hlow := (m (off + 1)).toNat_lt
  have h1 : ((m off).toNat * 256 + (m (off + 1)).toNat) / 256 = (m off).toNat := by omega
  have hrange : List.range 2 = [0, 1] := rfl
  have h2 : UInt8.ofNat ((m off).toNat * 256 + (m (off + 1)).toNat) = m (off + 1) := by
    apply UInt8.toNat_inj.mp
    rw [UInt8.toNat_ofNat']
    omega
  rw [be16, load16, h1, h2, UInt8.ofNat_toNat, bytes, hrange]
  rfl

theorem bytes_four (off : ℕ) : bytes m off 4 = be32 (load32 m off) := by
  have hhigh := load16_lt m off
  have hlow := load16_lt m (off + 2)
  have hdiv : load32 m off / 65536 = load16 m off := by
    rw [load32]
    omega
  have hmod : be16 (load32 m off) = be16 (load16 m (off + 2)) := by
    have hbyte : load32 m off / 256 % 256 = load16 m (off + 2) / 256 % 256 ∧
        load32 m off % 256 = load16 m (off + 2) % 256 := by
      rw [load32]
      omega
    rw [be16, be16, List.cons.injEq, List.cons.injEq]
    refine ⟨UInt8.toNat_inj.mp ?_, UInt8.toNat_inj.mp ?_, rfl⟩
    · rw [UInt8.toNat_ofNat', UInt8.toNat_ofNat']
      exact hbyte.1
    · rw [UInt8.toNat_ofNat', UInt8.toNat_ofNat']
      exact hbyte.2
  rw [be32, hdiv, hmod, ← bytes_two, ← bytes_two, ← bytes_append]

theorem load16_of_bytes_eq {m m' : Mem} {off : ℕ} (h : bytes m off 2 = bytes m' off 2) :
    load16 m off = load16 m' off := by
  have hv : load16 m off = load16 m' off % 65536 :=
    load16_at (a := []) (b := []) (h.trans (bytes_two m' off))
  rw [hv, Nat.mod_eq_of_lt (load16_lt m' off)]

end UBoot.Lib.Memory
