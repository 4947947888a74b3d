import Mathlib.Data.List.Sort

namespace UBoot.Lib.KeyOrder

variable {α κ : Type} [LinearOrder κ] (key : α → κ)

/-- In ascending order of the keys. -/
def Ascending (l : List α) : Prop := l.Pairwise fun a b ↦ key a ≤ key b

/-- The elements with one key. -/
def group (k : κ) (l : List α) : List α := l.filter fun a ↦ key a = k

/-- A new element goes in front of its equals. -/
def insert (a : α) (l : List α) : List α := l.orderedInsert (fun a b ↦ key a ≤ key b) a

instance total_key : Std.Total fun a b : α ↦ key a ≤ key b := ⟨fun a b ↦ le_total (key a) (key b)⟩

instance isTrans_key : IsTrans α fun a b ↦ key a ≤ key b := ⟨fun _ _ _ ↦ le_trans⟩

variable {key}

theorem group_cons (k : κ) (a : α) (l : List α) :
    group key k (a :: l) = if key a = k then a :: group key k l else group key k l := by
  simp [group, List.filter_cons]

theorem mem_of_group_eq {k : κ} {a : α} {l l' : List α} (h : group key k l = a :: l') :
    a ∈ l ∧ key a = k := by
  have hmem : a ∈ group key k l := by
    rw [h]
    exact List.mem_cons_self
  simpa [group] using hmem

theorem Ascending.eq_of_group_eq {l l' : List α} (hl : Ascending key l) (hl' : Ascending key l')
    (h : ∀ k, group key k l = group key k l') : l = l' := by
  induction l generalizing l' with
  | nil =>
    cases l' with
    | nil => rfl
    | cons b l' =>
      have hb := h (key b)
      rw [group_cons, if_pos rfl] at hb
      cases hb
  | cons a l ih =>
    cases l' with
    | nil =>
      have ha := h (key a)
      rw [group_cons, if_pos rfl] at ha
      cases ha
    | cons b l' =>
      have ha := h (key a)
      have hb := h (key b)
      rw [group_cons, if_pos rfl] at ha
      rw [group_cons _ b, if_pos rfl] at hb
      have hab : key a = key b := by
        apply le_antisymm
        · rcases List.mem_cons.mp (mem_of_group_eq hb).1 with rfl | hmem
          · exact le_rfl
          · exact (List.pairwise_cons.mp hl).1 b hmem
        · rcases List.mem_cons.mp (mem_of_group_eq ha.symm).1 with rfl | hmem
          · exact le_rfl
          · exact (List.pairwise_cons.mp hl').1 a hmem
      rw [group_cons, if_pos hab.symm] at ha
      obtain ⟨rfl, -⟩ := List.cons.inj ha
      rw [ih (List.pairwise_cons.mp hl).2 (List.pairwise_cons.mp hl').2 fun k ↦ ?_]
      have hk := h k
      rw [group_cons, group_cons] at hk
      split_ifs at hk
      · exact (List.cons.inj hk).2
      · exact hk

theorem Ascending.insert {l : List α} (h : Ascending key l) (a : α) :
    Ascending key (KeyOrder.insert key a l) :=
  List.Pairwise.orderedInsert a l h

theorem group_insert (k : κ) (a : α) (l : List α) :
    group key k (insert key a l) = group key k (a :: l) := by
  induction l with
  | nil => rfl
  | cons b l ih =>
    rw [insert, List.orderedInsert_cons]
    split_ifs with hab
    · rfl
    · rw [group_cons, ← insert, ih, group_cons _ a, group_cons _ a, group_cons]
      have hne : key b ≠ key a := fun heq ↦ hab heq.ge
      split_ifs with hb ha
      · exact absurd (hb.trans ha.symm) hne
      all_goals rfl

/-- One after the other, the elements of a group come in the order in which the last is first. -/
theorem group_foldl_insert (k : κ) (l acc : List α) :
    group key k (l.foldl (fun acc a ↦ insert key a acc) acc) =
      (group key k l).reverse ++ group key k acc := by
  induction l generalizing acc with
  | nil => rfl
  | cons a l ih =>
    rw [List.foldl_cons, ih, group_insert, group_cons, group_cons]
    split_ifs <;> simp

theorem map_insert {f : α → α} (hf : ∀ a, key (f a) = key a) (a : α) (l : List α) :
    (insert key a l).map f = insert key (f a) (l.map f) := by
  apply List.map_orderedInsert
  · intro b _
    rw [hf, hf]
  · intro b _
    rw [hf, hf]

theorem map_foldl_insert {f : α → α} (hf : ∀ a, key (f a) = key a) (l acc : List α) :
    (l.foldl (fun acc a ↦ insert key a acc) acc).map f =
      (l.map f).foldl (fun acc a ↦ insert key a acc) (acc.map f) := by
  induction l generalizing acc with
  | nil => rfl
  | cons a l ih => rw [List.foldl_cons, ih, map_insert hf, List.map_cons, List.foldl_cons]

theorem group_map {f : α → α} (hf : ∀ a, key (f a) = key a) (k : κ) (l : List α) :
    group key k (l.map f) = (group key k l).map f := by
  rw [group, List.filter_map]
  congr 2
  funext a
  simp [hf]

theorem ascending_map {f : α → α} (hf : ∀ a, key (f a) = key a) {l : List α}
    (h : Ascending key l) : Ascending key (l.map f) := by
  rw [Ascending, List.pairwise_map]
  simp only [hf]
  exact h

theorem ascending_foldl_insert {acc : List α} (h : Ascending key acc) (l : List α) :
    Ascending key (l.foldl (fun acc a ↦ insert key a acc) acc) := by
  induction l generalizing acc with
  | nil => exact h
  | cons a l ih => exact ih (h.insert a)

/-- An ascending list comes out as it is when each group reads the same backwards. -/
theorem Ascending.foldl_insert_eq {l : List α} (h : Ascending key l)
    (hgroup : ∀ k, (group key k l).reverse = group key k l) :
    l.foldl (fun acc a ↦ KeyOrder.insert key a acc) [] = l := by
  apply (ascending_foldl_insert List.Pairwise.nil l).eq_of_group_eq h
  intro k
  rw [group_foldl_insert, hgroup]
  exact List.append_nil _

end UBoot.Lib.KeyOrder
