import Mathlib.Data.List.Basic

namespace UBoot.Lib.Patch

variable {α : Type} {d d' src : List α} {off i : ℕ}

/-- `memcpy` into an array; `none` is a store outside it. -/
def patch (d : List α) (off : ℕ) (src : List α) : Option (List α) :=
  if off + src.length ≤ d.length then some (d.take off ++ src ++ d.drop (off + src.length))
  else none

/-- `memcpy` out of an array; `none` is a read outside it. -/
def fetch (d : List α) (off n : ℕ) : Option (List α) :=
  if off + n ≤ d.length then some ((d.drop off).take n) else none

theorem fetch_append (a b c : List α) : fetch (a ++ (b ++ c)) a.length b.length = some b := by
  rw [fetch, List.drop_left, List.take_left, if_pos]
  rw [List.length_append, List.length_append]
  omega

theorem patch_of_le (h : off + src.length ≤ d.length) : ∃ d', patch d off src = some d' :=
  ⟨_, if_pos h⟩

theorem patch_eq_some : patch d off src = some d' ↔
    off + src.length ≤ d.length ∧ d' = d.take off ++ src ++ d.drop (off + src.length) := by
  rw [patch]
  split_ifs with hle
  · rw [Option.some_inj, and_iff_right hle]
    exact eq_comm
  · exact iff_of_false (fun h ↦ by cases h) fun h ↦ hle h.1

theorem patch_length (h : patch d off src = some d') : d'.length = d.length := by
  obtain ⟨hle, rfl⟩ := patch_eq_some.mp h
  rw [List.length_append, List.length_append, List.length_take, List.length_drop]
  omega

theorem patch_inside (h : patch d off src = some d') (hi : i < src.length) :
    d'[off + i]? = src[i]? := by
  obtain ⟨hle, rfl⟩ := patch_eq_some.mp h
  have hfront : (d.take off).length = off := List.length_take_of_le (by omega)
  rw [List.append_assoc, List.getElem?_append_right (by omega), hfront, Nat.add_sub_cancel_left,
    List.getElem?_append_left hi]

theorem patch_outside (h : patch d off src = some d') (hi : i < off ∨ off + src.length ≤ i) :
    d'[i]? = d[i]? := by
  obtain ⟨hle, rfl⟩ := patch_eq_some.mp h
  have hfront : (d.take off).length = off := List.length_take_of_le (by omega)
  rcases hi with hi | hi
  · rw [List.append_assoc, List.getElem?_append_left (by omega), List.getElem?_take_of_lt hi]
  · have hlen : (d.take off ++ src).length = off + src.length := by rw [List.length_append, hfront]
    rw [List.getElem?_append_right (by omega), hlen, List.getElem?_drop]
    congr 1
    omega

/-- A part of the array is replaced by as many values. -/
theorem patch_append (a : List α) {b : List α} (c : List α) (h : src.length = b.length) :
    patch (a ++ (b ++ c)) a.length src = some (a ++ (src ++ c)) := by
  refine patch_eq_some.mpr ⟨?_, ?_⟩
  · rw [List.length_append, List.length_append]
    omega
  · have hfront : (a ++ b).length = a.length + src.length := by rw [List.length_append, h]
    rw [List.take_left, ← List.append_assoc a b, List.drop_left' hfront, List.append_assoc]

/-- Values are moved up over free space, and others take their places. -/
theorem patch_insert (a b c : List α) (h : src.length ≤ c.length) :
    ∃ d, patch (a ++ (b ++ c)) (a.length + src.length) b = some d ∧
      patch d a.length src = some (a ++ (src ++ (b ++ c.drop src.length))) := by
  let gap := (b ++ c).take src.length
  let old := ((b ++ c).drop src.length).take b.length
  have hgap : src.length = gap.length := by
    rw [List.length_take, List.length_append]
    omega
  have hold : b.length = old.length := by
    rw [List.length_take, List.length_drop, List.length_append]
    omega
  have hsplit : b ++ c = gap ++ (old ++ c.drop src.length) := by
    have hrest : c.drop src.length = ((b ++ c).drop src.length).drop b.length := by
      rw [List.drop_drop, Nat.add_comm, ← List.drop_drop, List.drop_left]
    rw [hrest, List.take_append_drop, List.take_append_drop]
  have hfirst := patch_append (a ++ gap) (c.drop src.length) hold
  rw [List.length_append, ← hgap, List.append_assoc, ← hsplit, List.append_assoc] at hfirst
  exact ⟨_, hfirst, patch_append a (b ++ c.drop src.length) hgap⟩

/-- Values are moved down over others. -/
theorem patch_remove (a r b c : List α) :
    ∃ rest, patch (a ++ (r ++ (b ++ c))) a.length b = some (a ++ (b ++ rest)) ∧
      rest.length = r.length + c.length := by
  let old := (r ++ (b ++ c)).take b.length
  let rest := (r ++ (b ++ c)).drop b.length
  have hold : b.length = old.length := by
    rw [List.length_take, List.length_append, List.length_append]
    omega
  have hsplit : r ++ (b ++ c) = old ++ rest := (List.take_append_drop ..).symm
  refine ⟨rest, ?_, ?_⟩
  · rw [hsplit]
    exact patch_append a rest hold
  · rw [List.length_drop, List.length_append, List.length_append]
    omega

end UBoot.Lib.Patch
