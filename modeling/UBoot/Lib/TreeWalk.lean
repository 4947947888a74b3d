import Mathlib.Data.List.Forall2
import Mathlib.Data.List.Nodup
import Mathlib.SetTheory.Cardinal.Finite

namespace UBoot.Lib.TreeWalk

section MapM

variable {α β : Type} {f : α → Option β} {l : List α} {l' : List β}

theorem mapM_eq_some : l.mapM f = some l' ↔ List.Forall₂ (fun a b ↦ f a = some b) l l' := by
  induction l generalizing l' with
  | nil =>
    rw [List.mapM_nil]
    constructor
    · rintro ⟨⟩
      exact .nil
    · rintro ⟨⟩
      rfl
  | cons a l ih =>
    rw [List.mapM_cons]
    constructor
    · intro h
      obtain ⟨b, hb, h⟩ := Option.bind_eq_some_iff.mp h
      obtain ⟨bs, hbs, h⟩ := Option.bind_eq_some_iff.mp h
      cases h
      exact .cons hb (ih.mp hbs)
    · rintro (_ | ⟨hb, hbs⟩)
      rw [hb, ih.mpr hbs]
      rfl

theorem mapM_eq_none (h : l.mapM f = none) : ∃ a ∈ l, f a = none := by
  induction l with
  | nil => cases h
  | cons a l ih =>
    cases ha : f a with
    | none => exact ⟨a, List.mem_cons_self, ha⟩
    | some b =>
      cases hl : l.mapM f with
      | none =>
        obtain ⟨x, hx, hnone⟩ := ih hl
        exact ⟨x, List.mem_cons_of_mem a hx, hnone⟩
      | some bs =>
        rw [List.mapM_cons, ha, hl] at h
        cases h

theorem map_mapM {γ : Type} (g : β → γ) :
    (l.mapM f).map (List.map g) = l.mapM fun a ↦ (f a).map g := by
  induction l with
  | nil => rfl
  | cons a l ih =>
    rw [List.mapM_cons, List.mapM_cons, ← ih]
    cases f a with
    | none => rfl
    | some b => cases l.mapM f <;> rfl

end MapM

variable {σ κ : Type} (children : σ → List σ) (key : σ → κ)

/-- The keys in the order of a walk into all children, when it ends. -/
def walk : ℕ → σ → Option (List κ)
  | 0, _ => none
  | n + 1, s => ((children s).mapM (walk n)).map fun ls ↦ key s :: ls.flatten

/-- The place that a path leads to; its numbers say which child is taken. -/
def follow : List ℕ → σ → Option σ
  | [], s => some s
  | i :: p, s => (children s)[i]?.bind (follow p)

def Reaches (s t : σ) : Prop := ∃ p, follow children p s = some t

/-- No two paths lead to one key. -/
def Unrepeated (s : σ) : Prop :=
  ∀ p q a b, follow children p s = some a → follow children q s = some b → key a = key b → p = q

variable {children key} {s : σ} {n : ℕ} {l : List κ}

theorem walk_eq_some : walk children key (n + 1) s = some l ↔
    ∃ ls, List.Forall₂ (fun c l ↦ walk children key n c = some l) (children s) ls ∧
      key s :: ls.flatten = l := by
  rw [walk, Option.map_eq_some_iff]
  constructor
  · rintro ⟨ls, hls, rfl⟩
    exact ⟨ls, mapM_eq_some.mp hls, rfl⟩
  · rintro ⟨ls, hls, rfl⟩
    exact ⟨ls, mapM_eq_some.mpr hls, rfl⟩

theorem follow_cons {i : ℕ} {p : List ℕ} {a : σ} :
    follow children (i :: p) s = some a ↔ ∃ c, (children s)[i]? = some c ∧ follow children p c = some a := by
  rw [follow, Option.bind_eq_some_iff]

theorem follow_append {p q : List ℕ} {a : σ} (h : follow children p s = some a) :
    follow children (p ++ q) s = follow children q a := by
  induction p generalizing s with
  | nil =>
    cases h
    rfl
  | cons i p ih =>
    obtain ⟨c, hc, hp⟩ := follow_cons.mp h
    rw [List.cons_append, follow, hc, Option.bind_some, ih hp]

theorem Unrepeated.child (h : Unrepeated children key s) {i : ℕ} {c : σ}
    (hc : (children s)[i]? = some c) : Unrepeated children key c := by
  intro p q a b hp hq hkey
  have heq := h (i :: p) (i :: q) a b (follow_cons.mpr ⟨c, hc, hp⟩) (follow_cons.mpr ⟨c, hc, hq⟩) hkey
  exact (List.cons.inj heq).2

/-- A walk has the keys of all places that paths lead to. -/
theorem mem_walk (h : walk children key n s = some l) {x : κ} :
    x ∈ l ↔ ∃ p a, follow children p s = some a ∧ key a = x := by
  induction n generalizing s l with
  | zero => cases h
  | succ n ih =>
    obtain ⟨ls, hls, rfl⟩ := walk_eq_some.mp h
    rw [List.mem_cons, List.mem_flatten]
    constructor
    · rintro (rfl | ⟨l, hl, hx⟩)
      · exact ⟨[], s, rfl, rfl⟩
      · obtain ⟨i, hi, rfl⟩ := List.mem_iff_getElem.mp hl
        have hi' : i < (children s).length := hls.length_eq ▸ hi
        obtain ⟨p, a, hp, rfl⟩ := (ih (hls.get hi' hi)).mp hx
        exact ⟨i :: p, a, follow_cons.mpr ⟨_, List.getElem?_eq_getElem hi', hp⟩, rfl⟩
    · rintro ⟨_ | ⟨i, p⟩, a, hp, rfl⟩
      · cases hp
        exact Or.inl rfl
      · obtain ⟨c, hc, hp⟩ := follow_cons.mp hp
        obtain ⟨hi, rfl⟩ := List.getElem?_eq_some_iff.mp hc
        have hi' : i < ls.length := hls.length_eq ▸ hi
        exact Or.inr ⟨ls[i], List.getElem_mem hi', (ih (hls.get hi hi')).mpr ⟨p, a, hp, rfl⟩⟩

theorem unrepeated_of_nodup (h : walk children key n s = some l) (hl : l.Nodup) :
    Unrepeated children key s := by
  induction n generalizing s l with
  | zero => cases h
  | succ n ih =>
    have hwalk := h
    obtain ⟨ls, hls, rfl⟩ := walk_eq_some.mp h
    obtain ⟨hfresh, hflat⟩ := List.nodup_cons.mp hl
    obtain ⟨hparts, hdisjoint⟩ := List.nodup_flatten.mp hflat
    -- a path into a child has its key in the part of the child
    have hpart : ∀ i p a, follow children (i :: p) s = some a →
        ∃ (hi : i < (children s).length) (hi' : i < ls.length),
          follow children p (children s)[i] = some a ∧ key a ∈ ls[i] := by
      intro i p a hp
      obtain ⟨c, hc, hp⟩ := follow_cons.mp hp
      obtain ⟨hi, rfl⟩ := List.getElem?_eq_some_iff.mp hc
      have hi' : i < ls.length := hls.length_eq ▸ hi
      exact ⟨hi, hi', hp, (mem_walk (hls.get hi hi')).mpr ⟨p, a, hp, rfl⟩⟩
    have hroot : ∀ i p a, follow children (i :: p) s = some a → key a ≠ key s := by
      intro i p a hp hkey
      obtain ⟨-, hi', -, hmem⟩ := hpart i p a hp
      exact hfresh (hkey ▸ List.mem_flatten.mpr ⟨_, List.getElem_mem hi', hmem⟩)
    rintro (_ | ⟨i, p⟩) (_ | ⟨j, q⟩) a b hp hq hkey
    · rfl
    · cases hp
      exact absurd hkey.symm (hroot j q b hq)
    · cases hq
      exact absurd hkey (hroot i p a hp)
    · obtain ⟨hi, hi', hp, hmem⟩ := hpart i p a hp
      obtain ⟨hj, hj', hq, hmem'⟩ := hpart j q b hq
      obtain rfl : i = j := by
        by_contra hne
        rcases Nat.lt_or_gt_of_ne hne with hlt | hlt
        · exact List.pairwise_iff_getElem.mp hdisjoint i j hi' hj' hlt hmem (hkey ▸ hmem')
        · exact List.pairwise_iff_getElem.mp hdisjoint j i hj' hi' hlt hmem' (hkey ▸ hmem)
      have hnodup := hparts _ (List.getElem_mem hi')
      rw [ih (hls.get hi hi') hnodup p q a b hp hq hkey]

theorem nodup_of_unrepeated (h : walk children key n s = some l)
    (hs : Unrepeated children key s) : l.Nodup := by
  induction n generalizing s l with
  | zero => cases h
  | succ n ih =>
    obtain ⟨ls, hls, rfl⟩ := walk_eq_some.mp h
    have hat : ∀ i (hi : i < ls.length), ∃ c, (children s)[i]? = some c ∧
        walk children key n c = some ls[i] := by
      intro i hi
      have hi' : i < (children s).length := hls.length_eq ▸ hi
      exact ⟨_, List.getElem?_eq_getElem hi', hls.get hi' hi⟩
    refine List.nodup_cons.mpr ⟨fun hmem ↦ ?_, List.nodup_flatten.mpr ⟨fun part hpart ↦ ?_, ?_⟩⟩
    · obtain ⟨part, hpart, hkey⟩ := List.mem_flatten.mp hmem
      obtain ⟨i, hi, rfl⟩ := List.mem_iff_getElem.mp hpart
      obtain ⟨c, hc, hwalk⟩ := hat i hi
      obtain ⟨p, a, hp, heq⟩ := (mem_walk hwalk).mp hkey
      cases hs (i :: p) [] a s (follow_cons.mpr ⟨c, hc, hp⟩) rfl heq
    · obtain ⟨i, hi, rfl⟩ := List.mem_iff_getElem.mp hpart
      obtain ⟨c, hc, hwalk⟩ := hat i hi
      exact ih hwalk (hs.child hc)
    · rw [List.pairwise_iff_getElem]
      intro i j hi hj hlt x hx hx'
      obtain ⟨c, hc, hwalk⟩ := hat i hi
      obtain ⟨c', hc', hwalk'⟩ := hat j hj
      obtain ⟨p, a, hp, rfl⟩ := (mem_walk hwalk).mp hx
      obtain ⟨q, b, hq, hkey⟩ := (mem_walk hwalk').mp hx'
      have heq := hs (i :: p) (j :: q) a b (follow_cons.mpr ⟨c, hc, hp⟩)
        (follow_cons.mpr ⟨c', hc', hq⟩) hkey.symm
      exact hlt.ne (List.cons.inj heq).1

theorem reaches_iff {t : σ} :
    Reaches children s t ↔ t = s ∨ ∃ c ∈ children s, Reaches children c t := by
  constructor
  · rintro ⟨_ | ⟨i, p⟩, hp⟩
    · cases hp
      exact Or.inl rfl
    · obtain ⟨c, hc, hp⟩ := follow_cons.mp hp
      exact Or.inr ⟨c, List.mem_of_getElem? hc, p, hp⟩
  · rintro (rfl | ⟨c, hc, p, hp⟩)
    · exact ⟨[], rfl⟩
    · obtain ⟨i, hi⟩ := List.mem_iff_getElem?.mp hc
      exact ⟨i :: p, follow_cons.mpr ⟨c, hi, hp⟩⟩

/-- A walk that does not end has a path as long as the fuel. -/
theorem exists_path (h : walk children key n s = none) :
    ∃ p a, p.length = n ∧ follow children p s = some a := by
  induction n generalizing s with
  | zero => exact ⟨[], s, rfl, rfl⟩
  | succ n ih =>
    rw [walk, Option.map_eq_none_iff] at h
    obtain ⟨c, hc, hnone⟩ := mapM_eq_none h
    obtain ⟨i, hi⟩ := List.mem_iff_getElem?.mp hc
    obtain ⟨p, a, hlength, hp⟩ := ih hnone
    exact ⟨i :: p, a, by rw [List.length_cons, hlength], follow_cons.mpr ⟨c, hi, hp⟩⟩

theorem exists_prefix {p : List ℕ} {a : σ} (h : follow children p s = some a) (k : ℕ) :
    ∃ b, follow children (p.take k) s = some b := by
  induction p generalizing s k with
  | nil => exact ⟨s, by rw [List.take_nil]; rfl⟩
  | cons i p ih =>
    cases k with
    | zero => exact ⟨s, rfl⟩
    | succ k =>
      obtain ⟨c, hc, hp⟩ := follow_cons.mp h
      obtain ⟨b, hb⟩ := ih hp k
      exact ⟨b, follow_cons.mpr ⟨c, hc, hb⟩⟩

/-- Among finitely many keys a walk without repetitions ends: the places along a path are different. -/
theorem Unrepeated.ends [Finite κ] (h : Unrepeated children key s) :
    ∃ l, walk children key (Nat.card κ) s = some l := by
  rw [← Option.isSome_iff_exists, ← Option.ne_none_iff_isSome]
  intro hnone
  obtain ⟨p, a, hlength, hp⟩ := exists_path hnone
  choose place hplace using exists_prefix hp
  have hinj : Function.Injective fun k : Fin (p.length + 1) ↦ key (place k) := by
    intro j k hkey
    have htake := h _ _ _ _ (hplace j) (hplace k) hkey
    have hlen := congrArg List.length htake
    rw [List.length_take, List.length_take] at hlen
    have hj := j.isLt
    have hk := k.isLt
    exact Fin.ext (by omega)
  have hcard := Nat.card_le_card_of_injective _ hinj
  rw [Nat.card_fin, hlength] at hcard
  omega

/-- A walk ends with every key once just if no two paths lead to one key. -/
theorem walk_nodup_iff [Finite κ] :
    (∃ n l, walk children key n s = some l ∧ l.Nodup) ↔ Unrepeated children key s := by
  constructor
  · rintro ⟨n, l, h, hl⟩
    exact unrepeated_of_nodup h hl
  · intro h
    obtain ⟨l, hl⟩ := h.ends
    exact ⟨_, l, hl, nodup_of_unrepeated hl h⟩

end UBoot.Lib.TreeWalk
