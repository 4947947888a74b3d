import UBoot.Lib.CString
import UBoot.Lib.Memory

namespace UBoot.Lib.StringTable

open CString Memory

/-- `strlen`, with `fuel` bytes up to the end of the address space. -/
def strlenFrom (m : Mem) : ℕ → ℕ → Option ℕ
  | 0, _ => none
  | fuel + 1, p => if m p = 0 then some 0 else (strlenFrom m fuel (p + 1)).map (· + 1)

def strlenAt (m : Mem) (p : ℕ) : Option ℕ := strlenFrom m (4294967296 - p) p

def stringAt (m : Mem) (p : ℕ) : Option CStr := (strlenAt m p).map (bytes m p)

/-- Strings one behind the other. -/
def packed (table : List CStr) : List UInt8 := table.flatMap (· ++ [0])

variable {m : Mem} {p : ℕ} {s : CStr}

theorem strlenFrom_of_bytes {fuel : ℕ} (hs : NulFree s)
    (h : bytes m p (s ++ [0]).length = s ++ [0]) (hfuel : s.length < fuel) :
    strlenFrom m fuel p = some s.length := by
  induction s generalizing fuel p with
  | nil =>
    obtain ⟨fuel, rfl⟩ := Nat.exists_eq_add_one.mpr hfuel
    have hzero : m p = 0 := apply_of_bytes h (i := 0) (by simp)
    rw [strlenFrom, if_pos hzero, List.length_nil]
  | cons c s ih =>
    obtain ⟨fuel, rfl⟩ := Nat.exists_eq_add_one.mpr (Nat.zero_lt_of_lt hfuel)
    have hc : m p = c := apply_of_bytes h (i := 0) (by simp)
    have hne : m p ≠ 0 := hc ▸ hs c List.mem_cons_self
    have htail : bytes m (p + 1) (s ++ [0]).length = s ++ [0] :=
      (bytes_eq_append (a := [c]) (b := s ++ [0]) h).2
    have hlen := ih (fun x hx ↦ hs x (List.mem_cons_of_mem _ hx)) htail
      (Nat.lt_of_succ_lt_succ hfuel)
    rw [strlenFrom, if_neg hne, hlen, Option.map_some, List.length_cons]

theorem strlenAt_of_bytes (hs : NulFree s) (h : bytes m p (s ++ [0]).length = s ++ [0])
    (hspace : p + s.length < 4294967296) : strlenAt m p = some s.length :=
  strlenFrom_of_bytes hs h (by omega)

theorem stringAt_of_bytes (hs : NulFree s) (h : bytes m p (s ++ [0]).length = s ++ [0])
    (hspace : p + s.length < 4294967296) : stringAt m p = some s := by
  rw [stringAt, strlenAt_of_bytes hs h hspace, Option.map_some, (bytes_eq_append h).1]

theorem packed_cons (s : CStr) (table : List CStr) :
    packed (s :: table) = (s ++ [0]) ++ packed table :=
  List.flatMap_cons

theorem packed_cons_length (s : CStr) (table : List CStr) :
    (packed (s :: table)).length = s.length + 1 + (packed table).length := by
  rw [packed_cons, List.length_append, List.length_append, List.length_singleton]

theorem packed_append (a b : List CStr) : packed (a ++ b) = packed a ++ packed b :=
  List.flatMap_append

/-- A string that ends a table stands as far from its end as the strings from it on are long. -/
theorem bytes_of_suffix {table rest : List CStr}
    (h : bytes m p (packed table).length = packed table) (hsuffix : s :: rest <:+ table) {a : ℕ}
    (ha : a + (packed (s :: rest)).length = p + (packed table).length) :
    bytes m a (s ++ [0]).length = s ++ [0] := by
  obtain ⟨front, rfl⟩ := hsuffix
  rw [packed_append] at h ha
  have hat : a = p + (packed front).length := by
    rw [List.length_append] at ha
    omega
  have hbehind := (bytes_eq_append h).2
  rw [packed_cons] at hbehind
  rw [hat]
  exact (bytes_eq_append hbehind).1

end UBoot.Lib.StringTable
