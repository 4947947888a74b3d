import Mathlib.Data.List.Basic
import Mathlib.Logic.Function.Basic

namespace UBoot.Lib.Linked

variable {P : Type} {next : P → Option P}

/-- From `p` on the pointers lead through the cells of `l` to `q`. -/
def Seg (next : P → Option P) : Option P → List P → Option P → Prop
  | p, [], q => p = q
  | p, a :: l, q => p = some a ∧ Seg next (next a) l q

/-- The cells of a list, read along its pointers. -/
def walk (next : P → Option P) : ℕ → Option P → List P
  | 0, _ => []
  | _ + 1, none => []
  | n + 1, some a => a :: walk next n (next a)

theorem seg_append {p q : Option P} {l l' : List P} :
    Seg next p (l ++ l') q ↔ ∃ r, Seg next p l r ∧ Seg next r l' q := by
  induction l generalizing p with
  | nil => exact ⟨fun h ↦ ⟨p, rfl, h⟩, fun ⟨r, hr, h⟩ ↦ hr ▸ h⟩
  | cons a l ih =>
    simp only [List.cons_append, Seg, ih]
    exact ⟨fun ⟨hp, r, h⟩ ↦ ⟨r, ⟨hp, h.1⟩, h.2⟩, fun ⟨r, h, h'⟩ ↦ ⟨h.1, r, h.2, h'⟩⟩

theorem Seg.start {p : Option P} {l : List P} (h : Seg next p l none) : p = l.head? := by
  cases l with
  | nil => exact h
  | cons a l => exact h.1

theorem Seg.next_eq {p : Option P} {l l' : List P} {a : P} (h : Seg next p (l ++ a :: l') none) :
    next a = l'.head? := by
  obtain ⟨r, -, -, h'⟩ := seg_append.mp h
  exact h'.start

theorem walk_eq {p : Option P} {l : List P} {n : ℕ} (h : Seg next p l none) (hn : l.length ≤ n) :
    walk next n p = l := by
  induction l generalizing p n with
  | nil =>
    cases n with
    | zero => rfl
    | succ n =>
      obtain rfl := h
      rfl
  | cons a l ih =>
    obtain ⟨rfl, h⟩ := h
    cases n with
    | zero => simp at hn
    | succ n => rw [walk, ih h (Nat.le_of_succ_le_succ hn)]

variable [DecidableEq P]

theorem Seg.update {p q : Option P} {l : List P} {a : P} (h : Seg next p l q) (ha : a ∉ l)
    (v : Option P) : Seg (Function.update next a v) p l q := by
  induction l generalizing p with
  | nil => exact h
  | cons b l ih =>
    rw [List.mem_cons, not_or] at ha
    obtain ⟨hp, h⟩ := h
    refine ⟨hp, ?_⟩
    rw [Function.update_of_ne (Ne.symm ha.1)]
    exact ih h ha.2

theorem Seg.cons {p : Option P} {l : List P} {a : P} (h : Seg next p l none) (ha : a ∉ l) :
    Seg (Function.update next a l.head?) (some a) (a :: l) none := by
  refine ⟨rfl, ?_⟩
  rw [Function.update_self, ← h.start]
  exact h.update ha _

theorem Seg.insert {p : Option P} {l l' : List P} {a b : P} (h : Seg next p (l ++ b :: l') none)
    (ha : a ∉ l ++ b :: l') (hb : (l ++ b :: l').Nodup) :
    Seg (Function.update (Function.update next a l'.head?) b (some a)) p (l ++ b :: a :: l') none := by
  obtain ⟨r, hl, rfl, hl'⟩ := seg_append.mp h
  rw [List.mem_append, List.mem_cons, not_or, not_or] at ha
  obtain ⟨hal, hab, hal'⟩ := ha
  have hbl : b ∉ l := by
    intro hmem
    exact (List.nodup_append.mp hb).2.2 b hmem b List.mem_cons_self rfl
  have hbl' : b ∉ l' := (List.nodup_cons.mp (List.nodup_append.mp hb).2.1).1
  refine seg_append.mpr ⟨some b, (hl.update hal _).update hbl _, rfl, ?_⟩
  rw [Function.update_self]
  refine ⟨rfl, ?_⟩
  rw [Function.update_of_ne hab, Function.update_self, ← hl'.start]
  exact (hl'.update hal' _).update hbl' _

end UBoot.Lib.Linked
