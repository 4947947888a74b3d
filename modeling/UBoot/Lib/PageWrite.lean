import Mathlib.Data.List.Basic
import Mathlib.Logic.Function.Basic

namespace UBoot.Lib.PageWrite

variable {α : Type} (merge : α → α → α) (page : ℕ)

/-- The address behind `a`; the counter of the chip wraps around inside the page. -/
def next (a : ℕ) : ℕ := a / page * page + (a + 1) % page

/-- A write command of a chip with pages: each byte is merged into the cell that the counter
points to. -/
def write : ℕ → List α → (ℕ → α) → ℕ → α
  | _, [], cells => cells
  | a, b :: bs, cells => write (next page a) bs (Function.update cells a (merge (cells a) b))

/-- The commands, one after the other. -/
def writeAll (commands : List (ℕ × List α)) (cells : ℕ → α) : ℕ → α :=
  commands.foldl (fun cells c ↦ write merge page c.1 c.2 cells) cells

/-- A command that stays in its page. -/
def InPage (c : ℕ × List α) : Prop := c.1 % page + c.2.length ≤ page

instance (c : ℕ × List α) : Decidable (InPage page c) := inferInstanceAs (Decidable (_ ≤ _))

/-- The commands name the bytes of `bs`, each once and in order, with their addresses from `a` on. -/
def Covers (a : ℕ) (bs : List α) (commands : List (ℕ × List α)) : Prop :=
  commands.flatMap (fun c ↦ c.2.zipIdx c.1) = bs.zipIdx a

/-- The bytes are merged one at a time, each at its address. -/
def mergeAll (ps : List (α × ℕ)) (cells : ℕ → α) : ℕ → α :=
  ps.foldl (fun cells p ↦ Function.update cells p.2 (merge (cells p.2) p.1)) cells

/-- The cells after `bs` was merged into them from `a` on. -/
def overlay (a : ℕ) (bs : List α) (cells : ℕ → α) (k : ℕ) : α :=
  if a ≤ k then bs[k - a]?.elim (cells k) (merge (cells k)) else cells k

/-- The first `n` cells from `a` on. -/
def read (cells : ℕ → α) (a n : ℕ) : List α := (List.range n).map fun i ↦ cells (a + i)

variable {merge page}

@[simp] theorem read_length (cells : ℕ → α) (a n : ℕ) : (read cells a n).length = n := by
  rw [read, List.length_map, List.length_range]

theorem read_getElem? (cells : ℕ → α) (a : ℕ) {n i : ℕ} (h : i < n) :
    (read cells a n)[i]? = some (cells (a + i)) := by
  rw [read, List.getElem?_map, List.getElem?_range h, Option.map_some]

theorem read_add (cells : ℕ → α) (a m n : ℕ) :
    read cells a (m + n) = read cells a m ++ read cells (a + m) n := by
  simp only [read, List.range_add, List.map_append, List.map_map]
  congr 2
  funext i
  exact congrArg cells (Nat.add_assoc a m i).symm

theorem succ_mod_of_lt {a : ℕ} (h : a % page + 1 < page) : (a + 1) % page = a % page + 1 := by
  rw [Nat.add_mod, Nat.mod_eq_of_lt (show 1 < page by omega), Nat.mod_eq_of_lt h]

theorem next_of_lt {a : ℕ} (h : a % page + 1 < page) : next page a = a + 1 := by
  rw [next, succ_mod_of_lt h, ← Nat.add_assoc, Nat.div_add_mod']

theorem overlay_below {a k : ℕ} (bs : List α) (cells : ℕ → α) (h : k < a) :
    overlay merge a bs cells k = cells k := if_neg (by omega)

theorem overlay_behind {a k : ℕ} {bs : List α} (cells : ℕ → α) (h : a + bs.length ≤ k) :
    overlay merge a bs cells k = cells k := by
  rw [overlay, if_pos (by omega), List.getElem?_eq_none (by omega), Option.elim_none]

theorem overlay_at {a k : ℕ} {bs : List α} {b : α} (cells : ℕ → α) (hk : a ≤ k)
    (hb : bs[k - a]? = some b) : overlay merge a bs cells k = merge (cells k) b := by
  rw [overlay, if_pos hk, hb, Option.elim_some]

@[simp] theorem overlay_nil (a : ℕ) (cells : ℕ → α) : overlay merge a [] cells = cells := by
  funext k
  simp [overlay]

theorem read_overlay (a : ℕ) (bs : List α) (cells : ℕ → α) :
    read (overlay (fun _ b ↦ b) a bs cells) a bs.length = bs := by
  apply List.ext_getElem?
  intro i
  rcases Nat.lt_or_ge i bs.length with hlt | hge
  · have hb := List.getElem?_eq_getElem (l := bs) (i := a + i - a) (by omega)
    rw [read_getElem? _ _ hlt, overlay_at _ (Nat.le_add_right a i) hb]
    simp [hlt]
  · rw [List.getElem?_eq_none hge, List.getElem?_eq_none (by rwa [read_length])]

theorem overlay_cons (a : ℕ) (b : α) (bs : List α) (cells : ℕ → α) :
    overlay merge a (b :: bs) cells =
      overlay merge (a + 1) bs (Function.update cells a (merge (cells a) b)) := by
  funext k
  rcases Nat.lt_trichotomy k a with hlt | rfl | hgt
  · rw [overlay_below _ _ hlt, overlay_below _ _ (by omega), Function.update_of_ne (by omega)]
  · rw [overlay_at (b := b) _ (Nat.le_refl k) (by rw [Nat.sub_self, List.getElem?_cons_zero]),
      overlay_below _ _ (Nat.lt_succ_self k), Function.update_self]
  · have hsub : k - a = k - (a + 1) + 1 := by omega
    rw [overlay, if_pos (by omega), overlay, if_pos (by omega), Function.update_of_ne (by omega),
      hsub, List.getElem?_cons_succ]

/-- A command that stays in its page does not notice that the counter wraps. -/
theorem write_eq_overlay {a : ℕ} {bs : List α} (h : InPage page (a, bs)) (cells : ℕ → α) :
    write merge page a bs cells = overlay merge a bs cells := by
  induction bs generalizing a cells with
  | nil => rw [write, overlay_nil]
  | cons b bs ih =>
    rw [write, overlay_cons]
    match bs with
    | [] => rw [write, overlay_nil]
    | b' :: bs =>
      have hroom : a % page + (bs.length + 2) ≤ page := h
      have hnext := next_of_lt (show a % page + 1 < page by omega)
      have hin : InPage page (a + 1, b' :: bs) := by
        show (a + 1) % page + (bs.length + 1) ≤ page
        rw [succ_mod_of_lt (by omega)]
        omega
      rw [hnext, ih hin]

theorem mergeAll_append (ps qs : List (α × ℕ)) (cells : ℕ → α) :
    mergeAll merge (ps ++ qs) cells = mergeAll merge qs (mergeAll merge ps cells) :=
  List.foldl_append

theorem mergeAll_zipIdx (a : ℕ) (bs : List α) (cells : ℕ → α) :
    mergeAll merge (bs.zipIdx a) cells = overlay merge a bs cells := by
  induction bs generalizing a cells with
  | nil => rw [overlay_nil, List.zipIdx_nil, mergeAll, List.foldl_nil]
  | cons b bs ih =>
    rw [overlay_cons, ← ih]
    rfl

theorem writeAll_eq_mergeAll {commands : List (ℕ × List α)} (h : ∀ c ∈ commands, InPage page c)
    (cells : ℕ → α) :
    writeAll merge page commands cells =
      mergeAll merge (commands.flatMap fun c ↦ c.2.zipIdx c.1) cells := by
  induction commands generalizing cells with
  | nil => rfl
  | cons c commands ih =>
    rw [List.forall_mem_cons] at h
    rw [List.flatMap_cons, mergeAll_append, mergeAll_zipIdx, ← write_eq_overlay h.1, ← ih h.2]
    rfl

/-- Commands that stay in their pages and cover the buffer write it as it is. -/
theorem writeAll_of_covers {a : ℕ} {bs : List α} {commands : List (ℕ × List α)}
    (hin : ∀ c ∈ commands, InPage page c) (hc : Covers a bs commands) (cells : ℕ → α) :
    writeAll merge page commands cells = overlay merge a bs cells := by
  rw [writeAll_eq_mergeAll hin, hc, mergeAll_zipIdx]

end UBoot.Lib.PageWrite
