import Mathlib.Data.Nat.ModEq
import Mathlib.Data.List.Basic

namespace UBoot.Lib.Ring

variable {α : Type} {d q : List α} {top : ℕ} {x : α}

/-- The cell behind `p` in a ring of `cap` cells. -/
def next (cap p : ℕ) : ℕ := if p + 1 = cap then 0 else p + 1

/-- A queue of at most `cap` values; the oldest one makes room. -/
def enqueue (cap : ℕ) (q : List α) (x : α) : List α := (if q.length < cap then q else q.tail) ++ [x]

/-- The last `cap` values. -/
def newest (cap : ℕ) (l : List α) : List α := l.drop (l.length - cap)

/-- The cells from `top` on hold a queue. -/
structure Holds (d : List α) (top : ℕ) (q : List α) : Prop where
  top_lt : top < d.length
  length_le : q.length ≤ d.length
  cells : ∀ i < q.length, d[(top + i) % d.length]? = q[i]?

theorem newest_length (cap : ℕ) (l : List α) : (newest cap l).length = min l.length cap := by
  rw [newest, List.length_drop]
  omega

theorem enqueue_newest {cap : ℕ} (h : 0 < cap) (l : List α) (x : α) :
    enqueue cap (newest cap l) x = newest cap (l ++ [x]) := by
  rw [enqueue, newest_length, newest, newest, List.length_append, List.length_singleton]
  split_ifs with hroom
  · rw [show l.length + 1 - cap = 0 by omega, show l.length - cap = 0 by omega]
    rfl
  · rw [List.tail_drop, List.drop_append_of_le_length (by omega)]
    congr 2
    omega

theorem next_eq_mod {cap p : ℕ} (h : p < cap) : next cap p = (p + 1) % cap := by
  rw [next]
  split_ifs with hend
  · rw [hend, Nat.mod_self]
  · rw [Nat.mod_eq_of_lt (by omega)]

theorem next_lt {cap p : ℕ} (h : p < cap) : next cap p < cap := by
  rw [next_eq_mod h]
  exact Nat.mod_lt _ (by omega)

/-- Cells less than one turn apart are different. -/
theorem index_ne {cap i j : ℕ} (hij : i < j) (hj : j < i + cap) : (top + i) % cap ≠ (top + j) % cap := by
  intro h
  have hmod : top + i ≡ top + j [MOD cap] := h
  have hdvd := (Nat.modEq_iff_dvd' (by omega)).mp hmod
  have hle := Nat.le_of_dvd (by omega) hdvd
  omega

theorem holds_nil (h : d ≠ []) : Holds d 0 ([] : List α) where
  top_lt := List.length_pos_iff.mpr h
  length_le := Nat.zero_le _
  cells i hi := absurd hi (Nat.not_lt_zero i)

theorem mapM_range_getElem {f : ℕ → Option α} (h : ∀ i < q.length, f i = q[i]?) :
    (List.range q.length).mapM f = some q := by
  induction q generalizing f with
  | nil => rfl
  | cons x q ih =>
    have hhead : f 0 = some x := h 0 (Nat.zero_lt_succ _)
    have htail : (List.range q.length).mapM (f ∘ Nat.succ) = some q :=
      ih fun i hi ↦ h (i + 1) (Nat.succ_lt_succ hi)
    rw [List.length_cons, List.range_succ_eq_map, List.mapM_cons, hhead, List.mapM_map]
    change (some x >>= fun x ↦ (List.range q.length).mapM (f ∘ Nat.succ) >>= fun q ↦ pure (x :: q)) = _
    rw [htail]
    rfl

/-- The queue is read from its first cell on. -/
theorem Holds.read (h : Holds d top q) :
    (List.range q.length).mapM (fun i ↦ d[(top + i) % d.length]?) = some q :=
  mapM_range_getElem h.cells

theorem Holds.head (h : Holds d top (x :: q)) : d[top]? = some x := by
  have hcell := h.cells 0 (Nat.zero_lt_succ _)
  rwa [Nat.add_zero, Nat.mod_eq_of_lt h.top_lt] at hcell

theorem Holds.tail (h : Holds d top (x :: q)) : Holds d (next d.length top) q where
  top_lt := next_lt h.top_lt
  length_le := (Nat.le_succ _).trans h.length_le
  cells i hi := by
    have hcell := h.cells (i + 1) (Nat.succ_lt_succ hi)
    rw [next_eq_mod h.top_lt, Nat.mod_add_mod, Nat.add_assoc, Nat.add_comm 1 i, hcell,
      List.getElem?_cons_succ]

/-- The free cell behind the queue takes a value. -/
theorem Holds.concat (h : Holds d top q) (hroom : q.length < d.length) (x : α) :
    Holds (d.set ((top + q.length) % d.length) x) top (q ++ [x]) where
  top_lt := by
    rw [List.length_set]
    exact h.top_lt
  length_le := by
    rw [List.length_set, List.length_append]
    exact hroom
  cells i hi := by
    rw [List.length_append, List.length_singleton] at hi
    have hlt : (top + q.length) % d.length < d.length := Nat.mod_lt _ (by omega)
    rw [List.length_set]
    rcases Nat.lt_or_eq_of_le (Nat.le_of_lt_succ hi) with hold | rfl
    · rw [List.getElem?_set_ne (index_ne hold (by omega)).symm, h.cells i hold,
        List.getElem?_append_left hold]
    · rw [List.getElem?_set_self hlt, List.getElem?_concat_length]

/-- Values in the free cells behind the queue, in whatever order they are stored. -/
theorem Holds.extend (h : Holds d top q) {d' xs : List α} (hlen : d'.length = d.length)
    (hroom : q.length + xs.length ≤ d.length)
    (hold : ∀ i < q.length, d'[(top + i) % d.length]? = d[(top + i) % d.length]?)
    (hnew : ∀ i < xs.length, d'[(top + q.length + i) % d.length]? = xs[i]?) :
    Holds d' top (q ++ xs) where
  top_lt := hlen ▸ h.top_lt
  length_le := by
    rw [List.length_append, hlen]
    exact hroom
  cells i hi := by
    rw [hlen]
    rcases Nat.lt_or_ge i q.length with hi' | hi'
    · rw [hold i hi', h.cells i hi', List.getElem?_append_left hi']
    · obtain ⟨k, rfl⟩ := Nat.exists_eq_add_of_le hi'
      rw [List.length_append] at hi
      rw [← Nat.add_assoc, hnew k (by omega), List.getElem?_append_right hi', Nat.add_sub_cancel_left]

/-- Adding to a full queue: the cell of the oldest value is used again. -/
theorem Holds.push (h : Holds d top q) (x : α) :
    Holds (d.set ((top + q.length) % d.length) x)
      (if q.length < d.length then top else next d.length top) (enqueue d.length q x) := by
  rw [enqueue]
  split_ifs with hroom
  · exact h.concat hroom x
  · have hfull : q.length = d.length := Nat.le_antisymm h.length_le (Nat.not_lt.mp hroom)
    have hpos : 0 < d.length := Nat.zero_lt_of_lt h.top_lt
    cases q with
    | nil => exact absurd hfull hpos.ne
    | cons y q =>
      rw [List.length_cons] at hfull
      have hcell : (top + (y :: q).length) % d.length =
          (next d.length top + q.length) % d.length := by
        rw [next_eq_mod h.top_lt, Nat.mod_add_mod, List.length_cons]
        congr 1
        omega
      rw [List.tail_cons, hcell]
      exact h.tail.concat (by omega) x

end UBoot.Lib.Ring
