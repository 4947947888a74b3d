import Mathlib.Data.List.TakeWhile
import UBoot.Lib.KeyOrder
import UBoot.Lib.Linked
import UBoot.Lib.PageWrite

namespace UBoot.Fs.Jffs2

open Lib.PageWrite Lib.KeyOrder Lib.Linked

/-- `jffs2_raw_inode`, as far as it is read, and the bytes behind it. -/
structure RawInode where
  ino : UInt32
  version : UInt32
  isize : UInt32
  offset : UInt32
  csize : UInt32
  dsize : UInt32
  compr : UInt8
  data : ℕ → UInt8

/-- `get_fl_mem` and `get_node_mem`: the node at an offset. -/
abbrev Flash := UInt32 → RawInode

/-- `b_list` with its cells; `add_node` takes the cell `listCount`. -/
structure BList where
  offset : ℕ → UInt32
  next : ℕ → Option ℕ
  listTail : Option ℕ
  listHead : Option ℕ
  listLast : Option ℕ
  listCount : ℕ

/-- The list after `memset`. -/
def BList.empty : BList := ⟨fun _ ↦ 0, fun _ ↦ none, none, none, none, 0⟩

variable (flash : Flash)

def compareInodes (new old : UInt32) : Bool := (flash old).version < (flash new).version

/-- `list->listCompare(new, b)`. -/
def older (L : BList) (new : UInt32) (b : ℕ) : Bool := compareInodes flash new (L.offset b)

/-- The loop of `insert_node`; `prev` and `b` when it ends. -/
def search (L : BList) (new : UInt32) : ℕ → Option ℕ → Option ℕ → Option ℕ × Option ℕ
  | 0, prev, b => (prev, b)
  | _ + 1, prev, none => (prev, none)
  | n + 1, prev, some b =>
    if older flash L new b then search L new n (some b) (L.next b)
    else (prev, some b)

/-- `prev` before the loop: the tail, the place of the last insertion, or no cell. -/
def searchFrom (L : BList) (new : UInt32) : Option ℕ :=
  if L.listTail.any (older flash L new) then L.listTail
  else if L.listLast.any (older flash L new) then L.listLast
  else none

/-- `insert_node` with `CFG_JFFS2_SORT_FRAGMENTS`. -/
def insertNode (L : BList) (offset : UInt32) : BList :=
  let new := L.listCount
  let prev := searchFrom flash L offset
  let (prev, b) := search flash L offset L.listCount prev (prev.elim L.listHead L.next)
  let L := { L with offset := Function.update L.offset new offset, listCount := new + 1 }
  match b with
  | some b =>
    let next := Function.update L.next new (some b)
    match prev with
    | some p => { L with listLast := prev, next := Function.update next p (some new) }
    | none => { L with listLast := prev, next := next, listHead := some new }
  | none =>
    let next := Function.update L.next new none
    match L.listTail with
    | some t => { L with next := Function.update next t (some new), listTail := some new }
    | none => { L with next := next, listTail := some new, listHead := some new }

/-- `insert_node` behind its search, as in the branches of `insertNode`. -/
def link (L : BList) (offset : UInt32) (prev b : Option ℕ) : BList :=
  let new := L.listCount
  let L := { L with offset := Function.update L.offset new offset, listCount := new + 1 }
  match b with
  | some b =>
    let next := Function.update L.next new (some b)
    match prev with
    | some p => { L with listLast := prev, next := Function.update next p (some new) }
    | none => { L with listLast := prev, next := next, listHead := some new }
  | none =>
    let next := Function.update L.next new none
    match L.listTail with
    | some t => { L with next := Function.update next t (some new), listTail := some new }
    | none => { L with next := next, listTail := some new, listHead := some new }

/-- The offsets along the list. -/
def fragments (L : BList) : List UInt32 := (walk L.next L.listCount L.listHead).map L.offset

def build (offsets : List UInt32) : BList := offsets.foldl (insertNode flash) BList.empty

def version (offset : UInt32) : ℕ := (flash offset).version.toNat

/-- The cells of a list in some order, and what the cached positions point to. -/
structure Chain (L : BList) (l : List ℕ) : Prop where
  chain : Seg L.next L.listHead l none
  tail : L.listTail = l.getLast?
  last : ∀ x, L.listLast = some x → x ∈ l
  fresh : ∀ x ∈ l, x < L.listCount
  nodup : l.Nodup
  length : l.length = L.listCount

/-- The cells of the list in order, and what the cached positions point to. -/
structure Inv (L : BList) (l : List ℕ) : Prop where
  chain : Seg L.next L.listHead l none
  tail : L.listTail = l.getLast?
  last : ∀ x, L.listLast = some x → x ∈ l
  fresh : ∀ x ∈ l, x < L.listCount
  nodup : l.Nodup
  length : l.length = L.listCount
  sorted : Ascending (version flash) (l.map L.offset)

variable {flash}

theorem older_iff {L : BList} {new : UInt32} {b : ℕ} :
    older flash L new b = true ↔ version flash (L.offset b) < version flash new := by
  rw [older, compareInodes, decide_eq_true_iff, UInt32.lt_iff_toNat_lt]
  rfl

section Chain

variable {L : BList} {s t l : List ℕ}

theorem Chain.empty : Chain BList.empty [] where
  chain := rfl
  tail := rfl
  last := fun _ h ↦ by cases h
  fresh := fun _ h ↦ by cases h
  nodup := List.nodup_nil
  length := rfl

theorem Chain.fragments_eq (h : Chain L l) : fragments L = l.map L.offset := by
  rw [fragments, walk_eq h.chain h.length.le]

/-- At the end of the list `prev` is not looked at. -/
theorem Chain.link (h : Chain L (s ++ t)) (offset : UInt32) {prev : Option ℕ}
    (hprev : t ≠ [] → prev = s.getLast?) :
    Chain (Jffs2.link L offset prev t.head?) (s ++ L.listCount :: t) := by
  have hnew : L.listCount ∉ s ++ t := fun hmem ↦ (h.fresh _ hmem).false
  have hperm : (s ++ L.listCount :: t).Perm (L.listCount :: (s ++ t)) := List.perm_middle
  have hnodup : (s ++ L.listCount :: t).Nodup :=
    hperm.nodup_iff.mpr (List.nodup_cons.mpr ⟨hnew, h.nodup⟩)
  have hlength : (s ++ L.listCount :: t).length = L.listCount + 1 := by
    rw [hperm.length_eq, List.length_cons, h.length]
  have hfresh : ∀ x ∈ s ++ L.listCount :: t, x < L.listCount + 1 := by
    intro x hx
    rcases List.mem_cons.mp (hperm.mem_iff.mp hx) with rfl | hx
    · exact Nat.lt_succ_self _
    · exact Nat.lt_succ_of_lt (h.fresh x hx)
  have hlast : ∀ x, L.listLast = some x → x ∈ s ++ L.listCount :: t := fun x hx ↦
    hperm.mem_iff.mpr (List.mem_cons_of_mem _ (h.last x hx))
  rw [Jffs2.link.eq_def]
  cases t with
  | nil =>
    simp only [List.append_nil] at h hnew ⊢
    rw [List.head?_nil]
    rcases List.eq_nil_or_concat' s with rfl | ⟨s, x, rfl⟩
    · have htail : L.listTail = none := h.tail
      simp only [htail]
      exact ⟨h.chain.cons hnew, rfl, hlast, hfresh, hnodup, hlength⟩
    · have htail : L.listTail = some x := by rw [h.tail, List.getLast?_concat]
      have hchain := h.chain.insert hnew h.nodup
      simp only [htail]
      refine ⟨?_, ?_, hlast, hfresh, hnodup, hlength⟩
      · rwa [List.append_assoc]
      · rw [List.getLast?_concat]
  | cons b t =>
    have htail : ∀ l' : List ℕ, (l' ++ b :: t).getLast? = L.listTail := by
      intro l'
      rw [h.tail, List.getLast?_append, List.getLast?_append, List.getLast?_cons]
      rfl
    rw [hprev (List.cons_ne_nil b t), List.head?_cons]
    rcases List.eq_nil_or_concat' s with rfl | ⟨s, x, rfl⟩
    · refine ⟨h.chain.cons hnew, ?_, ?_, hfresh, hnodup, hlength⟩
      · exact (htail [L.listCount]).symm
      · intro x hx
        cases hx
    · have hassoc : s ++ [x] ++ b :: t = s ++ x :: b :: t := by rw [List.append_assoc]; rfl
      rw [List.getLast?_concat]
      refine ⟨?_, ?_, ?_, hfresh, hnodup, hlength⟩
      · rw [List.append_assoc]
        exact (hassoc ▸ h.chain).insert (hassoc ▸ hnew) (hassoc ▸ h.nodup)
      · rw [← htail (s ++ [x, L.listCount])]
        rw [List.append_assoc, List.append_assoc]
        rfl
      · rintro y ⟨⟩
        exact List.mem_append_left _ (List.mem_append_right _ List.mem_cons_self)

/-- The offset of the new cell goes to its place, and the others keep theirs. -/
theorem Chain.fragments_link (h : Chain L (s ++ t)) (offset : UInt32) {prev : Option ℕ}
    (hprev : t ≠ [] → prev = s.getLast?) :
    fragments (Jffs2.link L offset prev t.head?) = s.map L.offset ++ offset :: t.map L.offset := by
  have hnew : L.listCount ∉ s ++ t := fun hmem ↦ (h.fresh _ hmem).false
  have hoffset : (Jffs2.link L offset prev t.head?).offset =
      Function.update L.offset L.listCount offset := by
    rw [Jffs2.link.eq_def]
    cases t.head? <;> [cases L.listTail; cases prev] <;> rfl
  have hkept : ∀ l : List ℕ, l ⊆ s ++ t →
      l.map (Function.update L.offset L.listCount offset) = l.map L.offset := by
    intro l hl
    apply List.map_congr_left
    intro x hx
    have hne : x ≠ L.listCount := fun heq ↦ hnew (heq ▸ hl hx)
    exact Function.update_of_ne hne _ _
  rw [(h.link offset hprev).fragments_eq, hoffset, List.map_append, List.map_cons,
    Function.update_self, hkept s (List.subset_append_left s t),
    hkept t (List.subset_append_right s t)]

end Chain

theorem Inv.empty : Inv flash BList.empty [] where
  chain := rfl
  tail := rfl
  last := fun _ h ↦ by cases h
  fresh := fun _ h ↦ by cases h
  nodup := List.nodup_nil
  length := rfl
  sorted := List.Pairwise.nil

theorem Inv.toChain {L : BList} {l : List ℕ} (h : Inv flash L l) : Chain L l :=
  ⟨h.chain, h.tail, h.last, h.fresh, h.nodup, h.length⟩

theorem Inv.fragments_eq {L : BList} {l : List ℕ} (h : Inv flash L l) :
    fragments L = l.map L.offset :=
  h.toChain.fragments_eq

theorem search_eq {L : BList} (new : UInt32) {l l' : List ℕ}
    (h : Seg L.next L.listHead (l ++ l') none) {n : ℕ} (hn : l'.length ≤ n)
    (hl : ∀ x ∈ l, older flash L new x = true) :
    search flash L new n l.getLast? l'.head? =
      (((l ++ l').takeWhile (older flash L new)).getLast?,
        ((l ++ l').dropWhile (older flash L new)).head?) := by
  induction l' generalizing l n with
  | nil =>
    rw [List.append_nil, List.takeWhile_eq_self_iff.mpr hl, List.dropWhile_eq_nil_iff.mpr hl]
    cases n <;> rfl
  | cons b l' ih =>
    cases n with
    | zero => simp at hn
    | succ n =>
      rw [List.head?_cons, search]
      split
      · rename_i hb
        have hnext := h.next_eq
        have hsplit : l ++ b :: l' = (l ++ [b]) ++ l' := by rw [List.append_assoc]; rfl
        rw [hsplit] at h ⊢
        rw [← ih h (Nat.le_of_succ_le_succ hn), List.getLast?_concat, hnext]
        intro x hx
        rcases List.mem_append.mp hx with hx | hx
        · exact hl x hx
        · rwa [List.mem_singleton.mp hx]
      · rename_i hb
        rw [List.takeWhile_append_of_pos hl, List.dropWhile_append_of_pos hl,
          List.takeWhile_cons_of_neg hb, List.dropWhile_cons_of_neg hb, List.append_nil]
        rfl

theorem Inv.older_upTo {L : BList} {l l' : List ℕ} {x : ℕ} (h : Inv flash L (l ++ x :: l'))
    {new : UInt32} (hx : older flash L new x = true) : ∀ y ∈ l ++ [x], older flash L new y = true := by
  intro y hy
  rw [older_iff] at hx ⊢
  rcases List.mem_append.mp hy with hy | hy
  · have hsorted := List.pairwise_map.mp h.sorted
    exact lt_of_le_of_lt ((List.pairwise_append.mp hsorted).2.2 y hy x List.mem_cons_self) hx
  · rwa [List.mem_singleton.mp hy]

theorem Inv.searchFrom_spec {L : BList} {l : List ℕ} (h : Inv flash L l) (new : UInt32) :
    ∃ s t, l = s ++ t ∧ (∀ x ∈ s, older flash L new x = true) ∧
      searchFrom flash L new = s.getLast? ∧
      (searchFrom flash L new).elim L.listHead L.next = t.head? := by
  have hcases : searchFrom flash L new = none ∨
      ∃ x ∈ l, older flash L new x = true ∧ searchFrom flash L new = some x := by
    rw [searchFrom]
    split
    · rename_i htail
      obtain ⟨x, hx, hold⟩ := (Option.any_eq_true _ _).mp htail
      exact Or.inr ⟨x, List.mem_of_getLast? (h.tail ▸ hx), hold, hx⟩
    · split
      · rename_i hlast
        obtain ⟨x, hx, hold⟩ := (Option.any_eq_true _ _).mp hlast
        exact Or.inr ⟨x, h.last x hx, hold, hx⟩
      · exact Or.inl rfl
  rcases hcases with hnone | ⟨x, hx, hold, hfrom⟩
  · refine ⟨[], l, rfl, List.forall_mem_nil _, hnone, ?_⟩
    rw [hnone, Option.elim_none, h.chain.start]
  · obtain ⟨s, t, rfl⟩ := List.append_of_mem hx
    refine ⟨s ++ [x], t, by rw [List.append_assoc]; rfl, h.older_upTo hold, ?_, ?_⟩
    · rw [hfrom, List.getLast?_concat]
    · rw [hfrom, Option.elim_some, h.chain.next_eq]

/-- On the offsets, the new cell goes in front of the first one that is not older. -/
theorem map_offset_insert {L : BList} {l : List ℕ} {new : ℕ} (hnew : new ∉ l) (off : UInt32) :
    (l.takeWhile (older flash L off) ++ new :: l.dropWhile (older flash L off)).map
        (Function.update L.offset new off) =
      Lib.KeyOrder.insert (version flash) off (l.map L.offset) := by
  have hkept : ∀ {s : List ℕ}, s.Sublist l →
      s.map (Function.update L.offset new off) = s.map L.offset := by
    intro s hs
    apply List.map_congr_left
    intro x hx
    have hne : x ≠ new := fun heq ↦ hnew (heq ▸ hs.subset hx)
    exact Function.update_of_ne hne _ _
  have holder : older flash L off =
      (fun b ↦ decide ¬ version flash off ≤ version flash b) ∘ L.offset := by
    funext b
    rw [Bool.eq_iff_iff, older_iff]
    simp
  rw [Lib.KeyOrder.insert, List.orderedInsert_eq_take_drop, List.takeWhile_map, List.dropWhile_map,
    ← holder, List.map_append, List.map_cons, Function.update_self,
    hkept (List.takeWhile_sublist _), hkept (List.dropWhile_sublist _)]

theorem insertNode_offset (L : BList) (off : UInt32) :
    (insertNode flash L off).offset = Function.update L.offset L.listCount off := by
  rw [insertNode]
  simp only
  split
  · split <;> rfl
  · split <;> rfl

theorem Inv.insertNode {L : BList} {l : List ℕ} (h : Inv flash L l) (off : UInt32) :
    Inv flash (insertNode flash L off)
      (l.takeWhile (older flash L off) ++ L.listCount :: l.dropWhile (older flash L off)) := by
  have hnew : L.listCount ∉ l := fun hmem ↦ (h.fresh _ hmem).false
  have hsorted : Ascending (version flash) ((l.takeWhile (older flash L off) ++
      L.listCount :: l.dropWhile (older flash L off)).map
        (Function.update L.offset L.listCount off)) := by
    rw [map_offset_insert hnew]
    exact h.sorted.insert off
  have hsearch : search flash L off L.listCount (searchFrom flash L off)
      ((searchFrom flash L off).elim L.listHead L.next) =
        ((l.takeWhile (older flash L off)).getLast?, (l.dropWhile (older flash L off)).head?) := by
    obtain ⟨s, t, rfl, hold, hfrom, hnext⟩ := h.searchFrom_spec off
    rw [hnext, hfrom]
    apply search_eq off h.chain _ hold
    rw [← h.length, List.length_append]
    exact Nat.le_add_left _ _
  have hall : l.takeWhile (older flash L off) ++ l.dropWhile (older flash L off) = l :=
    List.takeWhile_append_dropWhile
  generalize l.takeWhile (older flash L off) = s at hsorted hsearch hall ⊢
  generalize l.dropWhile (older flash L off) = t at hsorted hsearch hall ⊢
  subst hall
  have hlink : Jffs2.insertNode flash L off = Jffs2.link L off s.getLast? t.head? := by
    rw [Jffs2.insertNode, Jffs2.link.eq_def]
    simp only [hsearch]
  have hchain := h.toChain.link off fun _ ↦ (rfl : s.getLast? = s.getLast?)
  rw [hlink]
  refine ⟨hchain.chain, hchain.tail, hchain.last, hchain.fresh, hchain.nodup, hchain.length, ?_⟩
  rw [← hlink, insertNode_offset]
  exact hsorted

/-- `insert_node` refines the insertion in order of the versions. -/
theorem Inv.fragments_insertNode {L : BList} {l : List ℕ} (h : Inv flash L l) (off : UInt32) :
    fragments (Jffs2.insertNode flash L off) =
      Lib.KeyOrder.insert (version flash) off (fragments L) := by
  rw [(h.insertNode off).fragments_eq, insertNode_offset, h.fragments_eq,
    map_offset_insert fun hmem ↦ (h.fresh _ hmem).false]

theorem fragments_build (offsets : List UInt32) :
    fragments (build flash offsets) =
      offsets.foldl (fun acc off ↦ Lib.KeyOrder.insert (version flash) off acc) [] := by
  have hall : ∀ (L : BList) (l : List ℕ), Inv flash L l →
      fragments (offsets.foldl (insertNode flash) L) =
        offsets.foldl (fun acc off ↦ Lib.KeyOrder.insert (version flash) off acc) (fragments L) := by
    induction offsets with
    | nil => exact fun L l h ↦ rfl
    | cons off offsets ih =>
      intro L l h
      rw [List.foldl_cons, List.foldl_cons, ih _ _ (h.insertNode off), h.fragments_insertNode]
  exact hall _ _ .empty

end UBoot.Fs.Jffs2
