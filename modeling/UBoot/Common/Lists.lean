import Mathlib.Data.Int.ModEq
import Mathlib.Data.List.Induction
import Mathlib.Algebra.Order.Ring.Int
import UBoot.Lib.Patch

namespace UBoot.Common.Lists

open Lib.Patch

/-- What an `int` holds behind an operation. -/
def int32 (x : ℤ) : ℤ := x.bmod 4294967296

/-- `ListStruct`, with the bytes from `itemList` to the end of the handle. -/
structure ListStruct where
  signature : UInt32
  percentIncrease : ℤ
  minNumItemsIncrease : ℤ
  listSize : ℤ
  itemSize : ℤ
  numItems : ℤ
  itemList : List UInt8

/-- `offsetof (ListStruct, itemList)`. -/
def itemListAt : ℕ := 24

/-- `sizeof (ListStruct)`. -/
def sizeofListStruct : ℕ := 28

def listStart : ℤ := -1

def listEnd : ℤ := 0

/-- `GetHandleSize`. -/
def handleSize (list : ListStruct) : ℕ := itemListAt + list.itemList.length

/-- The result and the list. `granted` is whether `realloc` finds memory; `none` is a handle that is too
small for the `ListStruct`. -/
def setHandleSize (list : ListStruct) (newSize : UInt32) (granted : Bool) :
    Option (ℤ × ListStruct) :=
  if handleSize list = newSize.toNat then some (1, list)
  else if granted ∨ newSize = 0 then
    if newSize.toNat < itemListAt then none
    else
      some (1, { list with
        itemList := list.itemList.take (newSize.toNat - itemListAt) ++
          List.replicate (newSize.toNat - handleSize list) 0 })
  else some (0, list)

/-- The macro `NUMITEMSPERALLOC`. -/
def numItemsPerAlloc (list : ListStruct) : ℤ :=
  max ((int32 (list.listSize * (list.percentIncrease + 100))).tdiv 100) list.minNumItemsIncrease

/-- The size that `ExpandListSpace` asks for. -/
def expandedSize (list : ListStruct) (numNewItems : ℤ) : UInt32 :=
  .ofInt (sizeofListStruct + int32 (int32 (list.listSize + numNewItems) * list.itemSize))

def expandListSpace (list : ListStruct) (numNewItems : ℤ) (granted : Bool) :
    Option (ℤ × ListStruct) := do
  let numNewItems :=
    if numNewItems = 0 then numItemsPerAlloc list
    else if numNewItems < 0 then int32 (-numNewItems + numItemsPerAlloc list)
    else numNewItems
  let (ok, list) ← setHandleSize list (expandedSize list numNewItems) granted
  if ok = 0 then return (0, list)
  return (1, { list with listSize := int32 (list.listSize + numNewItems) })

/-- A new list, where `ram` is what the bytes behind the header hold. -/
def listCreate (elementSize : ℤ) (ram : List UInt8) : ListStruct where
  signature := 0x4c495354
  percentIncrease := 10
  minNumItemsIncrease := 4
  listSize := 0
  itemSize := elementSize
  numItems := 0
  itemList := ram

/-- `memcpy` and `memmove` to `ITEMPTR (list, item)`. -/
def toItem (list : ListStruct) (item : ℤ) (src : List UInt8) : Option ListStruct :=
  let off := int32 (list.itemSize * item)
  if 0 ≤ off then (patch list.itemList off.toNat src).map fun itemList ↦ { list with itemList }
  else none

/-- The `n` bytes from `ITEMPTR (list, item)` on. -/
def fromItem (list : ListStruct) (item n : ℤ) : Option (List UInt8) :=
  let off := int32 (list.itemSize * item)
  if 0 ≤ off ∧ 0 ≤ n then fetch list.itemList off.toNat n.toNat else none

/-- The `n` bytes at `ptrToItems`, zeros for NULL. -/
def newBytes (ptrToItems : Option (List UInt8)) (n : ℤ) : Option (List UInt8) :=
  if 0 ≤ n then
    match ptrToItems with
    | some p => fetch p 0 n.toNat
    | none => some (List.replicate n.toNat 0)
  else none

/-- `if ((*list)->numItems >= (*list)->listSize) ExpandListSpace (list, -numItemsToInsert)`. -/
def expandIfFull (list : ListStruct) (numItemsToInsert : ℤ) (granted : Bool) :
    Option (ℤ × ListStruct) :=
  if list.listSize ≤ list.numItems then expandListSpace list (-numItemsToInsert) granted
  else some (1, list)

/-- `ListInsertItems` when there is space. -/
def placeItems (list : ListStruct) (ptrToItems : Option (List UInt8))
    (numItems firstItemPosition numItemsToInsert : ℤ) : Option ListStruct := do
  let firstItemPosition :=
    if firstItemPosition = listStart then (if numItems = 0 then listEnd else 1)
    else firstItemPosition
  let items ← newBytes ptrToItems (int32 (list.itemSize * numItemsToInsert))
  if firstItemPosition = listEnd then
    let list ← toItem list numItems items
    return { list with numItems := int32 (list.numItems + numItemsToInsert) }
  else
    let moved ← fromItem list (firstItemPosition - 1)
      (int32 ((numItems + 1 - firstItemPosition) * list.itemSize))
    let list ← toItem list (firstItemPosition - 1 + numItemsToInsert) moved
    let list ← toItem list (firstItemPosition - 1) items
    return { list with numItems := int32 (list.numItems + numItemsToInsert) }

/-- The result and the list; `none` is an access outside of the handle. The items come from outside of
it. -/
def listInsertItems (list : ListStruct) (ptrToItems : Option (List UInt8))
    (firstItemPosition numItemsToInsert : ℤ) (granted : Bool) : Option (ℤ × ListStruct) :=
  let numItems := list.numItems
  if firstItemPosition ≠ numItems + 1 ∧ numItems < firstItemPosition then some (0, list)
  else do
    let firstItemPosition := if firstItemPosition = numItems + 1 then listEnd else firstItemPosition
    let (ok, list) ← expandIfFull list numItemsToInsert granted
    if ok = 0 then return (0, list)
    let list ← placeItems list ptrToItems numItems firstItemPosition numItemsToInsert
    return (1, list)

def listInsertItem (list : ListStruct) (ptrToItem : Option (List UInt8)) (itemPosition : ℤ)
    (granted : Bool) : Option (ℤ × ListStruct) :=
  listInsertItems list ptrToItem itemPosition 1 granted

/-- What is copied to `itemsDestination`, if that is not NULL. -/
def copyItems (list : ListStruct) (destination : Bool) (firstItemPosition numItems : ℤ) :
    Option (List UInt8) :=
  if destination then fromItem list (firstItemPosition - 1) (int32 (list.itemSize * numItems))
  else some []

/-- The items behind a hole are moved down. -/
def closeHole (list : ListStruct) (firstItemPosition firstItemAfterChunk : ℤ) : Option ListStruct :=
  let numToMove := list.numItems - (firstItemAfterChunk - 1)
  if 0 < numToMove then
    (fromItem list (firstItemAfterChunk - 1) (int32 (list.itemSize * numToMove))).bind
      (toItem list (firstItemPosition - 1))
  else some list

/-- What is copied to `itemsDestination`, and the list. -/
def listRemoveItems (list : ListStruct) (destination : Bool)
    (firstItemPosition numItemsToRemove : ℤ) : Option (List UInt8 × ListStruct) := do
  let firstItemPosition :=
    if firstItemPosition = listStart then 1
    else if firstItemPosition = listEnd then list.numItems
    else firstItemPosition
  let copied ← copyItems list destination firstItemPosition numItemsToRemove
  let firstItemAfterChunk := int32 (firstItemPosition + numItemsToRemove)
  let list ← closeHole list firstItemPosition firstItemAfterChunk
  return (copied, { list with numItems := int32 (list.numItems - numItemsToRemove) })

def listRemoveItem (list : ListStruct) (destination : Bool) (itemPosition : ℤ) :
    Option (List UInt8 × ListStruct) :=
  listRemoveItems list destination itemPosition 1

/-- The items of a call: copied from memory, or zeros for the pointer NULL. -/
inductive Source where
  | memory (items : List (List UInt8))
  | null (count : ℕ)

def Source.pointer : Source → Option (List UInt8)
  | .memory items => some items.flatten
  | .null _ => none

def Source.values (itemSize : ℕ) : Source → List (List UInt8)
  | .memory items => items
  | .null count => List.replicate count (List.replicate itemSize 0)

def Source.count : Source → ℕ
  | .memory items => items.length
  | .null count => count

inductive Op where
  | insert (src : Source) (position : ℤ) (granted : Bool)
  | remove (destination : Bool) (position : ℤ) (count : ℕ)

/-- A call. `ListRemoveItems` has no result. -/
def step (list : ListStruct) : Op → Option (ℤ × ListStruct)
  | .insert src position granted => listInsertItems list src.pointer position src.count granted
  | .remove destination position count =>
    (listRemoveItems list destination position count).map fun r ↦ (1, r.2)

/-- In front of which item is inserted. -/
def insertAt (n : ℕ) (position : ℤ) : ℕ :=
  if position = listStart then 0 else if position = listEnd then n else (position - 1).toNat

/-- From which item on is removed. -/
def removeAt (n : ℕ) (position : ℤ) : ℕ :=
  if position = listStart then 0 else if position = listEnd then n - 1 else (position - 1).toNat

/-- A call on the reference list. -/
def refStep (itemSize : ℕ) (ref : List (List UInt8)) : Op → List (List UInt8)
  | .insert src position _ =>
    let at' := insertAt ref.length position
    ref.take at' ++ (src.values itemSize ++ ref.drop at')
  | .remove _ position count =>
    let at' := removeAt ref.length position
    ref.take at' ++ ref.drop (at' + count)

/-- The result of a call, and the list beside the reference list. -/
def call (t : ListStruct × List (List UInt8)) (op : Op) :
    Option (ℤ × ListStruct × List (List UInt8)) :=
  (step t.1 op).map fun r ↦
    (r.1, r.2, if r.1 = 0 then t.2 else refStep t.1.itemSize.toNat t.2 op)

def run (t : ListStruct × List (List UInt8)) (ops : List Op) :
    Option (ListStruct × List (List UInt8)) :=
  ops.foldlM (fun t op ↦ (call t op).map (·.2)) t

/-- At least one item of the right size, at a position of the list, or a range of the list. -/
def InList (itemSize : ℕ) (ref : List (List UInt8)) : Op → Prop
  | .insert src position _ =>
    1 ≤ src.count ∧ (∀ item ∈ src.values itemSize, item.length = itemSize) ∧
      (position = listStart ∨ position = listEnd ∨ 1 ≤ position ∧ position ≤ ref.length + 1)
  | .remove _ position count =>
    removeAt ref.length position + count ≤ ref.length ∧
      (position = listStart ∨ position = listEnd ∧ ref ≠ [] ∨ 1 ≤ position)

/-- There is space for the new items, or none for a single one. In the second case the handle that is
asked for has less than 2^31 bytes, or it is refused. -/
def Fits (list : ListStruct) : Op → Prop
  | .insert src _ granted =>
    list.numItems + src.count ≤ list.listSize ∨
      list.listSize ≤ list.numItems ∧
        (sizeofListStruct + (list.listSize + (src.count + numItemsPerAlloc list)) * list.itemSize <
            2147483648 ∨
          granted = false ∧
            (expandedSize list (int32 (src.count + numItemsPerAlloc list))).toNat ≠ 0 ∧
            (expandedSize list (int32 (src.count + numItemsPerAlloc list))).toNat ≠ handleSize list)
  | .remove .. => True

/-- `P` is true of each call of a run and the lists that it is made on. -/
def Always (P : ListStruct × List (List UInt8) → Op → Prop) (t : ListStruct × List (List UInt8))
    (ops : List Op) : Prop :=
  ∀ front op, front ++ [op] <+: ops → ∀ t', run t front = some t' → P t' op

def AllIn : ListStruct × List (List UInt8) → List Op → Prop :=
  Always fun t op ↦ InList t.1.itemSize.toNat t.2 op

def AllFit : ListStruct × List (List UInt8) → List Op → Prop :=
  Always fun t op ↦ InList t.1.itemSize.toNat t.2 op ∧ Fits t.1 op

/-- The list holds the items of the reference list inside its handle. -/
structure Holds (list : ListStruct) (ref : List (List UInt8)) : Prop where
  count : list.numItems = ref.length
  capacity : list.numItems ≤ list.listSize
  inside : itemListAt + ref.length * list.itemSize.toNat ≤ handleSize list
  contents : list.itemList.take ref.flatten.length = ref.flatten
  sizes : ∀ item ∈ ref, item.length = list.itemSize.toNat

/-- The list refines the reference list: it is like it after each call, and a call with the result 0
changes nothing. -/
structure Refines (t : ListStruct × List (List UInt8)) (ops : List Op) : Prop where
  holds : ∀ front, front <+: ops → ∃ t', run t front = some t' ∧ Holds t'.1 t'.2
  unchanged : ∀ front op, front ++ [op] <+: ops → ∀ t' t'', run t front = some t' →
    call t' op = some (0, t'') → t'' = t'

/-- What holds between two calls of a list with space for `cap` items. -/
structure Rep (sz cap : ℕ) (list : ListStruct) (ref : List (List UInt8)) : Prop where
  itemSize : list.itemSize = sz
  listSize : list.listSize = cap
  policy : 0 ≤ list.minNumItemsIncrease
  count : list.numItems = ref.length
  capacity : ref.length ≤ cap
  bound : sizeofListStruct + sz * cap < 2147483648
  length : list.itemList.length = 4 + sz * cap
  contents : ∃ rest, list.itemList = ref.flatten ++ rest
  sizes : ∀ item ∈ ref, item.length = sz

theorem int32_natCast {x : ℕ} (h : x < 2147483648) : int32 x = x := by
  rw [int32, Int.bmod_def]
  split_ifs <;> omega

theorem length_flatten_items {sz : ℕ} {items : List (List UInt8)}
    (h : ∀ item ∈ items, item.length = sz) : items.flatten.length = sz * items.length := by
  induction items with
  | nil => rfl
  | cons item items ih =>
    have hrest := ih fun x hx ↦ h x (List.mem_cons_of_mem _ hx)
    rw [List.flatten_cons, List.length_append, hrest, h item List.mem_cons_self, List.length_cons,
      Nat.mul_succ, Nat.add_comm]

section Access

variable {list : ListStruct} {sz p n : ℕ}

theorem toItem_eq (hsz : list.itemSize = sz) (hlt : sz * p < 2147483648) (src : List UInt8) :
    toItem list p src =
      (patch list.itemList (sz * p) src).map fun itemList ↦ { list with itemList } := by
  have hoff : int32 (list.itemSize * p) = (sz * p : ℕ) := by
    rw [hsz, ← Nat.cast_mul, int32_natCast hlt]
  rw [toItem, hoff, if_pos (Int.natCast_nonneg _), Int.toNat_natCast]

theorem fromItem_eq (hsz : list.itemSize = sz) (hlt : sz * p < 2147483648) (n : ℕ) :
    fromItem list p n = fetch list.itemList (sz * p) n := by
  have hoff : int32 (list.itemSize * p) = (sz * p : ℕ) := by
    rw [hsz, ← Nat.cast_mul, int32_natCast hlt]
  rw [fromItem, hoff, if_pos ⟨Int.natCast_nonneg _, Int.natCast_nonneg _⟩, Int.toNat_natCast,
    Int.toNat_natCast]

theorem newBytes_eq (src : Source) (h : ∀ item ∈ src.values sz, item.length = sz) :
    newBytes src.pointer (sz * src.count : ℕ) = some (src.values sz).flatten := by
  cases src with
  | memory items =>
    rw [Source.pointer, newBytes, if_pos (Int.natCast_nonneg _), Int.toNat_natCast]
    have hlength := length_flatten_items h
    rw [Source.values] at hlength
    have hfetch := fetch_append [] items.flatten []
    rw [List.append_nil, hlength] at hfetch
    exact hfetch
  | null count =>
    rw [Source.pointer, newBytes, if_pos (Int.natCast_nonneg _), Int.toNat_natCast, Source.values,
      List.flatten_replicate_replicate, Nat.mul_comm, Source.count]

theorem values_length (src : Source) (sz : ℕ) : (src.values sz).length = src.count := by
  cases src with
  | memory items => rfl
  | null count => exact List.length_replicate

end Access

section Insert

variable {list : ListStruct} {sz cap n : ℕ} {ref : List (List UInt8)}

theorem Rep.update (h : Rep sz cap list ref) (ref' : List (List UInt8)) {itemList : List UInt8}
    (rest : List UInt8) (hlength : itemList.length = list.itemList.length) (hcap : ref'.length ≤ cap)
    (hcontents : itemList = ref'.flatten ++ rest) (hsizes : ∀ item ∈ ref', item.length = sz)
    {numItems : ℤ} (hnum : numItems = ref'.length) :
    Rep sz cap { list with itemList := itemList, numItems := numItems } ref' where
  itemSize := h.itemSize
  listSize := h.listSize
  policy := h.policy
  count := hnum
  capacity := hcap
  bound := h.bound
  length := hlength.trans h.length
  contents := ⟨rest, hcontents⟩
  sizes := hsizes

theorem Rep.mul_lt (h : Rep sz cap list ref) (hn : n ≤ cap) : sz * n < 2147483648 := by
  have hle : sz * n ≤ sz * cap := Nat.mul_le_mul_left sz hn
  have hbound := h.bound
  omega

theorem Rep.count_lt (h : Rep sz cap list ref) (hsz : 1 ≤ sz) (hn : n ≤ cap) : n < 2147483648 := by
  have hle : n ≤ sz * n := Nat.le_mul_of_pos_left n hsz
  exact hle.trans_lt (h.mul_lt hn)

theorem Rep.length_take (h : Rep sz cap list ref) (hn : n ≤ ref.length) :
    (ref.take n).flatten.length = sz * n := by
  have hfront := length_flatten_items fun item hitem ↦ h.sizes item (List.mem_of_mem_take (i := n) hitem)
  rwa [List.length_take_of_le hn] at hfront

theorem Rep.length_drop (h : Rep sz cap list ref) (n : ℕ) :
    (ref.drop n).flatten.length = sz * (ref.length - n) := by
  have hback := length_flatten_items fun item hitem ↦ h.sizes item (List.mem_of_mem_drop (i := n) hitem)
  rwa [List.length_drop] at hback

theorem Rep.split (h : Rep sz cap list ref) (n : ℕ) :
    ∃ rest, list.itemList = (ref.take n).flatten ++ ((ref.drop n).flatten ++ rest) := by
  obtain ⟨rest, hrest⟩ := h.contents
  refine ⟨rest, ?_⟩
  rw [hrest, ← List.append_assoc, ← List.flatten_append, List.take_append_drop]

/-- What is moved when a place opens or a hole is closed in front of the `n`th item. -/
theorem Rep.fromItem_drop (h : Rep sz cap list ref) (hn : n ≤ ref.length) :
    fromItem list n (sz * (ref.length - n) : ℕ) = some (ref.drop n).flatten := by
  obtain ⟨rest, hsplit⟩ := h.split n
  have hfetch := fetch_append (ref.take n).flatten (ref.drop n).flatten rest
  rw [← hsplit, h.length_take hn, h.length_drop] at hfetch
  rw [fromItem_eq h.itemSize (h.mul_lt (hn.trans h.capacity)), hfetch]

theorem Rep.int32_count (h : Rep sz cap list ref) (hsz : 1 ≤ sz) (hn : ref.length + n ≤ cap) :
    int32 (list.numItems + n) = (ref.length + n : ℕ) := by
  rw [h.count, ← Nat.cast_add, int32_natCast (h.count_lt hsz hn)]

theorem Rep.int32_bytes (h : Rep sz cap list ref) (hn : n ≤ cap) :
    int32 (list.itemSize * n) = (sz * n : ℕ) := by
  rw [h.itemSize, ← Nat.cast_mul, int32_natCast (h.mul_lt hn)]

theorem resolve_position {numItems position : ℤ} {n : ℕ} (hnum : numItems = n)
    (hpos : position = listStart ∨ position = listEnd ∨ 1 ≤ position ∧ position ≤ n) :
    (if position = listStart then (if numItems = 0 then listEnd else 1) else position) = listEnd ∧
        insertAt n position = n ∨
      ∃ p < n, (if position = listStart then (if numItems = 0 then listEnd else 1) else position) =
          p + 1 ∧ insertAt n position = p := by
  have hne : listEnd ≠ listStart := by decide
  rcases hpos with rfl | rfl | ⟨hpos, hle⟩
  · rw [if_pos rfl, insertAt, if_pos rfl]
    rcases Nat.eq_zero_or_pos n with rfl | hn
    · exact .inl ⟨if_pos hnum, rfl⟩
    · exact .inr ⟨0, hn, if_neg (by omega), rfl⟩
  · rw [if_neg hne, insertAt, if_neg hne, if_pos rfl]
    exact .inl ⟨rfl, rfl⟩
  · have hstart : position ≠ listStart := by
      rw [listStart]
      omega
    have hend : position ≠ listEnd := by
      rw [listEnd]
      omega
    rw [if_neg hstart, insertAt, if_neg hstart, if_neg hend]
    exact .inr ⟨(position - 1).toNat, by omega, by omega, rfl⟩

theorem Rep.append (h : Rep sz cap list ref) (hsz : 1 ≤ sz) {items : List (List UInt8)}
    (hroom : ref.length + items.length ≤ cap) (hsizes : ∀ item ∈ items, item.length = sz) :
    ∃ l, toItem list list.numItems items.flatten = some l ∧
      Rep sz cap { l with numItems := int32 (l.numItems + items.length) } (ref ++ items) := by
  obtain ⟨rest, hrest⟩ := h.contents
  have hflatten := length_flatten_items h.sizes
  have hitems := length_flatten_items hsizes
  have hnum := h.int32_count hsz hroom
  have hmul : sz * (ref.length + items.length) ≤ sz * cap := Nat.mul_le_mul_left sz hroom
  have hlength := h.length
  rw [hrest, List.length_append, hflatten] at hlength
  rw [Nat.mul_add] at hmul
  have hspace : items.flatten.length = (rest.take items.flatten.length).length := by
    rw [List.length_take]
    omega
  have hpatch := patch_append ref.flatten (rest.drop items.flatten.length) hspace
  rw [List.take_append_drop, hflatten, ← hrest] at hpatch
  rw [h.count, toItem_eq h.itemSize (h.mul_lt h.capacity), hpatch, Option.map_some]
  refine ⟨_, rfl, ?_⟩
  refine h.update (ref ++ items) (rest.drop items.flatten.length)
    (patch_length hpatch) ?_ ?_ ?_ ?_
  · rw [List.length_append]
    exact hroom
  · rw [List.flatten_append, List.append_assoc]
  · exact List.forall_mem_append.mpr ⟨h.sizes, hsizes⟩
  · rw [List.length_append]
    exact hnum

theorem Rep.insert (h : Rep sz cap list ref) (hsz : 1 ≤ sz) {items : List (List UInt8)}
    (hroom : ref.length + items.length ≤ cap) (hsizes : ∀ item ∈ items, item.length = sz) {p : ℕ}
    (hp : p < ref.length) :
    ∃ moved l l', fromItem list p (int32 ((list.numItems - p) * list.itemSize)) = some moved ∧
      toItem list (p + items.length : ℕ) moved = some l ∧ toItem l p items.flatten = some l' ∧
      Rep sz cap { l' with numItems := int32 (l'.numItems + items.length) }
        (ref.take p ++ (items ++ ref.drop p)) := by
  obtain ⟨rest, hsplit⟩ := h.split p
  have hitems := length_flatten_items hsizes
  have hfront := h.length_take hp.le
  have hcapacity := h.capacity
  have hbytes : int32 ((list.numItems - p) * list.itemSize) = (sz * (ref.length - p) : ℕ) := by
    rw [h.count, h.itemSize, ← Nat.cast_sub hp.le, ← Nat.cast_mul, Nat.mul_comm,
      int32_natCast (h.mul_lt (by omega))]
  have hspace : items.flatten.length ≤ rest.length := by
    have hlength := h.length
    have hmul : sz * (p + (ref.length - p) + items.length) ≤ sz * cap :=
      Nat.mul_le_mul_left sz (by omega)
    rw [hsplit, List.length_append, List.length_append, hfront, h.length_drop] at hlength
    rw [Nat.mul_add, Nat.mul_add] at hmul
    omega
  obtain ⟨d, hup, hput⟩ := patch_insert (ref.take p).flatten (ref.drop p).flatten rest hspace
  rw [← hsplit, hfront, hitems, ← Nat.mul_add] at hup
  rw [hfront] at hput
  have hnum := h.int32_count hsz hroom
  have hmoved : fromItem list p (int32 ((list.numItems - p) * list.itemSize)) =
      some (ref.drop p).flatten := by
    rw [hbytes, h.fromItem_drop hp.le]
  have hfirst := toItem_eq h.itemSize (h.mul_lt (n := p + items.length) (by omega)) (ref.drop p).flatten
  rw [hup, Option.map_some] at hfirst
  have hsize : ({ list with itemList := d } : ListStruct).itemSize = sz := h.itemSize
  have hsecond := toItem_eq hsize (h.mul_lt (n := p) (by omega)) items.flatten
  rw [hput, Option.map_some] at hsecond
  refine ⟨_, _, _, hmoved, hfirst, hsecond, ?_⟩
  refine h.update (ref.take p ++ (items ++ ref.drop p)) (rest.drop items.flatten.length)
    ((patch_length hput).trans (patch_length hup)) ?_ ?_ ?_ ?_
  · rw [List.length_append, List.length_append, List.length_take, List.length_drop]
    omega
  · simp only [List.flatten_append, List.append_assoc]
  · intro item hitem
    rw [List.mem_append, List.mem_append] at hitem
    rcases hitem with hitem | hitem | hitem
    · exact h.sizes item (List.mem_of_mem_take hitem)
    · exact hsizes item hitem
    · exact h.sizes item (List.mem_of_mem_drop hitem)
  · rw [List.length_append, List.length_append, List.length_take, List.length_drop]
    dsimp only
    rw [hnum]
    omega

theorem Rep.place (h : Rep sz cap list ref) (hsz : 1 ≤ sz) (src : Source)
    (hroom : ref.length + src.count ≤ cap) (hsizes : ∀ item ∈ src.values sz, item.length = sz)
    {position : ℤ}
    (hpos : position = listStart ∨ position = listEnd ∨ 1 ≤ position ∧ position ≤ ref.length) :
    ∃ list', placeItems list src.pointer list.numItems position src.count = some list' ∧
      Rep sz cap list' (ref.take (insertAt ref.length position) ++
        (src.values sz ++ ref.drop (insertAt ref.length position))) := by
  have hbytes := h.int32_bytes (n := src.count) (by omega)
  rw [← values_length src sz] at hroom
  rw [placeItems, hbytes, newBytes_eq src hsizes]
  rcases resolve_position h.count hpos with ⟨hfirst, hat⟩ | ⟨p, hp, hfirst, hat⟩
  · obtain ⟨l, hl, hrep⟩ := h.append hsz hroom hsizes
    rw [hfirst, hat, List.take_length, List.drop_length, List.append_nil, Option.bind_eq_bind,
      Option.bind_some, if_pos rfl, hl]
    rw [values_length] at hrep
    exact ⟨_, rfl, hrep⟩
  · obtain ⟨moved, l, l', hmoved, hup, hput, hrep⟩ := h.insert hsz hroom hsizes hp
    have hne : (p : ℤ) + 1 ≠ listEnd := by
      rw [listEnd]
      omega
    have hcount : list.numItems + 1 - (p + 1) = list.numItems - p := by omega
    rw [values_length, Nat.cast_add] at hup
    rw [values_length] at hrep
    rw [hfirst, hat, Option.bind_eq_bind, Option.bind_some, if_neg hne, hcount, Int.add_sub_cancel]
    simp only [hmoved, hup, hput, Option.bind_eq_bind, Option.bind_some]
    exact ⟨_, rfl, hrep⟩

end Insert

section Expand

variable {list : ListStruct} {sz cap : ℕ} {ref : List (List UInt8)}

theorem Rep.handleSize (h : Rep sz cap list ref) : handleSize list = sizeofListStruct + sz * cap := by
  rw [Lists.handleSize, h.length, itemListAt, sizeofListStruct]
  omega

theorem numItemsPerAlloc_nonneg (h : Rep sz cap list ref) : 0 ≤ numItemsPerAlloc list :=
  h.policy.trans (le_max_right _ _)

theorem expandListSpace_neg {k : ℕ} (hk : 1 ≤ k) (granted : Bool) :
    expandListSpace list (-k) granted =
      (setHandleSize list (expandedSize list (int32 (k + numItemsPerAlloc list))) granted).bind
        fun r ↦ if r.1 = 0 then some (0, r.2) else
          some (1, { r.2 with
            listSize := int32 (r.2.listSize + int32 (k + numItemsPerAlloc list)) }) := by
  have hne : (-k : ℤ) ≠ 0 := by omega
  have hneg : (-k : ℤ) < 0 := by omega
  rw [expandListSpace, if_neg hne, if_pos hneg, Int.neg_neg]
  rfl

/-- A list that is full gets space for the new items, and as much as its policy says besides. -/
theorem Rep.expand (h : Rep sz cap list ref) (hsz : 1 ≤ sz) {k : ℕ} (hk : 1 ≤ k)
    (hbound : sizeofListStruct + (list.listSize + (k + numItemsPerAlloc list)) * list.itemSize <
      2147483648) (granted : Bool) :
    expandListSpace list (-k) granted = some (0, list) ∨
      ∃ list' cap', expandListSpace list (-k) granted = some (1, list') ∧ cap + k ≤ cap' ∧
        Rep sz cap' list' ref := by
  obtain ⟨alloc, halloc⟩ := Int.eq_ofNat_of_zero_le (numItemsPerAlloc_nonneg h)
  rw [h.listSize, h.itemSize, halloc] at hbound
  have hsize : sizeofListStruct + sz * (cap + (k + alloc)) < 2147483648 := by
    rw [Nat.mul_comm]
    exact_mod_cast hbound
  have hlt : cap + (k + alloc) < 2147483648 := by
    have hle : cap + (k + alloc) ≤ sz * (cap + (k + alloc)) := Nat.le_mul_of_pos_left _ hsz
    omega
  have hnew : int32 (k + numItemsPerAlloc list) = (k + alloc : ℕ) := by
    rw [halloc, ← Nat.cast_add, int32_natCast (by omega)]
  have hsum : int32 (list.listSize + (k + alloc : ℕ)) = (cap + (k + alloc) : ℕ) := by
    rw [h.listSize, ← Nat.cast_add, int32_natCast hlt]
  have hexpanded : (expandedSize list (k + alloc : ℕ)).toNat =
      sizeofListStruct + sz * (cap + (k + alloc)) := by
    rw [expandedSize, hsum, h.itemSize, ← Nat.cast_mul, Nat.mul_comm, int32_natCast (by omega),
      ← Nat.cast_add, UInt32.ofInt, UInt32.toNat_ofNat']
    omega
  have hmul : sz * (cap + (k + alloc)) = sz * cap + sz * (k + alloc) := Nat.mul_add ..
  have hmore : 1 ≤ sz * (k + alloc) := Nat.mul_pos hsz (by omega)
  have hhandle := h.handleSize
  have hother : Lists.handleSize list ≠ (expandedSize list (k + alloc : ℕ)).toNat := by omega
  rw [expandListSpace_neg hk, hnew, setHandleSize, if_neg hother]
  cases granted with
  | false =>
    have hne : ¬ (false = true ∨ expandedSize list (k + alloc : ℕ) = 0) := by
      rintro (hfalse | hzero)
      · exact Bool.false_ne_true hfalse
      · rw [hzero] at hexpanded
        exact absurd hexpanded (by rw [sizeofListStruct, UInt32.toNat_zero]; omega)
    rw [if_neg hne]
    exact .inl rfl
  | true =>
    have hge : ¬ (expandedSize list (k + alloc : ℕ)).toNat < itemListAt := by
      rw [hexpanded, sizeofListStruct, itemListAt]
      omega
    have hlength := h.length
    have hall : list.itemList.length ≤ (expandedSize list (k + alloc : ℕ)).toNat - itemListAt := by
      rw [hexpanded, hlength, sizeofListStruct, itemListAt]
      omega
    have hzeros : (expandedSize list (k + alloc : ℕ)).toNat - Lists.handleSize list =
        sz * (k + alloc) := by omega
    obtain ⟨rest, hrest⟩ := h.contents
    rw [if_pos (.inl rfl), if_neg hge, List.take_of_length_le hall, hzeros]
    refine .inr ⟨_, cap + (k + alloc), rfl, by omega, h.itemSize, hsum, h.policy, h.count, ?_, hsize, ?_,
      ⟨rest ++ List.replicate (sz * (k + alloc)) 0, ?_⟩, h.sizes⟩
    · exact h.capacity.trans (Nat.le_add_right _ _)
    · rw [List.length_append, List.length_replicate, hlength, hmul, Nat.add_assoc]
    · rw [← List.append_assoc, ← hrest]

theorem setHandleSize_refused {newSize : UInt32} (hzero : newSize.toNat ≠ 0)
    (hother : newSize.toNat ≠ handleSize list) : setHandleSize list newSize false = some (0, list) := by
  have hne : ¬ (false = true ∨ newSize = 0) := by
    rintro (hfalse | rfl)
    · exact Bool.false_ne_true hfalse
    · exact hzero rfl
  rw [setHandleSize, if_neg hother.symm, if_neg hne]

end Expand

section Steps

variable {list : ListStruct} {sz cap : ℕ} {ref : List (List UInt8)}

/-- The position one behind the last item is that of `LIST_END`. -/
theorem insertAt_alias {n : ℕ} {position : ℤ}
    (hpos : position = listStart ∨ position = listEnd ∨ 1 ≤ position ∧ position ≤ n + 1) :
    ¬ (position ≠ n + 1 ∧ (n : ℤ) < position) ∧
      insertAt n (if position = n + 1 then listEnd else position) = insertAt n position ∧
      ((if position = n + 1 then listEnd else position) = listStart ∨
        (if position = n + 1 then listEnd else position) = listEnd ∨
        1 ≤ (if position = n + 1 then listEnd else position) ∧
          (if position = n + 1 then listEnd else position) ≤ n) := by
  rw [listStart, listEnd] at *
  refine ⟨by omega, ?_, by split_ifs <;> omega⟩
  split_ifs with halias
  · have hstart : position ≠ listStart := by
      rw [listStart]
      omega
    have hend : position ≠ listEnd := by
      rw [listEnd]
      omega
    have hlast : insertAt n 0 = n := rfl
    rw [hlast, insertAt, if_neg hstart, if_neg hend]
    omega
  · rfl

theorem Rep.space (h : Rep sz cap list ref) (hsz : 1 ≤ sz) {src : Source} (hcount : 1 ≤ src.count)
    {position : ℤ} {granted : Bool} (hfits : Fits list (.insert src position granted)) :
    expandIfFull list src.count granted = some (0, list) ∨
      ∃ list' cap', expandIfFull list src.count granted = some (1, list') ∧
        ref.length + src.count ≤ cap' ∧ Rep sz cap' list' ref ∧ list'.numItems = list.numItems := by
  rw [expandIfFull]
  have hnum := h.count
  have hcap := h.capacity
  have hlist := h.listSize
  rcases hfits with hroom | ⟨hfull, hbound | ⟨rfl, hzero, hother⟩⟩
  · rw [if_neg (by omega)]
    exact .inr ⟨list, cap, rfl, by omega, h, rfl⟩
  · rw [if_pos hfull]
    refine (h.expand hsz hcount hbound granted).imp_right ?_
    rintro ⟨list', cap', hexpand, hmore, hrep⟩
    exact ⟨list', cap', hexpand, by omega, hrep, hrep.count.trans hnum.symm⟩
  · rw [if_pos hfull, expandListSpace_neg hcount, setHandleSize_refused hzero hother]
    exact .inl rfl

theorem Rep.step_insert (h : Rep sz cap list ref) (hsz : 1 ≤ sz) {src : Source} {position : ℤ}
    {granted : Bool} (hin : InList sz ref (.insert src position granted))
    (hfits : Fits list (.insert src position granted)) :
    step list (.insert src position granted) = some (0, list) ∨
      ∃ list' cap', step list (.insert src position granted) = some (1, list') ∧
        Rep sz cap' list' (refStep sz ref (.insert src position granted)) := by
  obtain ⟨hcount, hsizes, hpos⟩ := hin
  obtain ⟨hvalid, hat, hfirst⟩ := insertAt_alias hpos
  rw [← h.count] at hvalid hat hfirst
  rw [step, listInsertItems, if_neg hvalid]
  dsimp only
  rcases h.space hsz hcount hfits with hspace | ⟨l, cap', hspace, hroom, hrep, hnum⟩
  · rw [hspace]
    exact .inl rfl
  · have hposition : (if position = list.numItems + 1 then listEnd else position) = listStart ∨
        (if position = list.numItems + 1 then listEnd else position) = listEnd ∨
        1 ≤ (if position = list.numItems + 1 then listEnd else position) ∧
          (if position = list.numItems + 1 then listEnd else position) ≤ ref.length := by
      rw [h.count] at hfirst ⊢
      exact hfirst
    obtain ⟨list', hplace, hrep'⟩ := hrep.place hsz src hroom hsizes hposition
    rw [hat] at hrep'
    rw [hnum] at hplace
    refine .inr ⟨list', cap', ?_, hrep'⟩
    rw [hspace, Option.bind_eq_bind, Option.bind_some, if_neg (show ¬ (1 : ℤ) = 0 by decide),
      hplace]
    rfl

theorem removeAt_succ {n : ℕ} {numItems position : ℤ} (hnum : numItems = n)
    (hpos : position = listStart ∨ position = listEnd ∧ 0 < n ∨ 1 ≤ position) :
    (if position = listStart then 1 else if position = listEnd then numItems else position) =
      (removeAt n position : ℤ) + 1 := by
  rw [removeAt]
  rw [listStart, listEnd] at *
  split_ifs <;> omega

/-- The items behind a range are moved down over it. -/
theorem Rep.remove (h : Rep sz cap list ref) (hsz : 1 ≤ sz) {p count : ℕ}
    (hrange : p + count ≤ ref.length) :
    ∃ l, closeHole list (p + 1) ((p + count : ℕ) + 1) = some l ∧
      Rep sz cap { l with numItems := int32 (l.numItems - count) }
        (ref.take p ++ ref.drop (p + count)) := by
  obtain ⟨rest, hrest⟩ := h.contents
  have hcapacity := h.capacity
  have hnum : int32 (list.numItems - count) = (ref.length - count : ℕ) := by
    rw [h.count, ← Nat.cast_sub (by omega), int32_natCast (h.count_lt hsz (by omega))]
  have hlength : (ref.take p ++ ref.drop (p + count)).length = ref.length - count := by
    rw [List.length_append, List.length_take, List.length_drop]
    omega
  have hsizes : ∀ item ∈ ref.take p ++ ref.drop (p + count), item.length = sz :=
    List.forall_mem_append.mpr ⟨fun item hitem ↦ h.sizes item (List.mem_of_mem_take hitem),
      fun item hitem ↦ h.sizes item (List.mem_of_mem_drop hitem)⟩
  have hparts : ref = ref.take p ++ ((ref.drop p).take count ++ ref.drop (p + count)) := by
    rw [← List.drop_drop, List.take_append_drop, List.take_append_drop]
  have hsplit : list.itemList = (ref.take p).flatten ++
      (((ref.drop p).take count).flatten ++ ((ref.drop (p + count)).flatten ++ rest)) := by
    rw [hrest]
    conv_lhs => rw [hparts]
    simp only [List.flatten_append, List.append_assoc]
  have hmove : list.numItems - (p + count : ℕ) = (ref.length - (p + count) : ℕ) := by
    rw [h.count, Nat.cast_sub hrange]
  rw [closeHole, Int.add_sub_cancel, Int.add_sub_cancel, hmove]
  rcases Nat.lt_or_eq_of_le hrange with hlt | heq
  · have hfront := h.length_take (n := p) (by omega)
    obtain ⟨rest', hpatch, -⟩ := patch_remove (ref.take p).flatten ((ref.drop p).take count).flatten
      (ref.drop (p + count)).flatten rest
    rw [← hsplit, hfront] at hpatch
    have hbytes := h.int32_bytes (n := ref.length - (p + count)) (by omega)
    have hput := toItem_eq h.itemSize (h.mul_lt (n := p) (by omega)) (ref.drop (p + count)).flatten
    rw [hpatch, Option.map_some] at hput
    rw [if_pos (by omega), hbytes, h.fromItem_drop hrange, Option.bind_some]
    refine ⟨_, hput, h.update _ rest' (patch_length hpatch) (by omega) ?_ hsizes ?_⟩
    · rw [List.flatten_append, List.append_assoc]
    · rw [hlength]
      exact hnum
  · have hnone : ref.drop (p + count) = [] := List.drop_eq_nil_of_le heq.ge
    refine ⟨list, if_neg (by omega), h.update _ (((ref.drop p).take count).flatten ++ rest) rfl
      (by omega) ?_ hsizes ?_⟩
    · rw [hsplit, hnone, List.append_nil, List.flatten_nil, List.nil_append]
    · rw [hlength]
      exact hnum

theorem Rep.copy (h : Rep sz cap list ref) {p count : ℕ} (hrange : p + count ≤ ref.length)
    (destination : Bool) : ∃ copied, copyItems list destination (p + 1) count = some copied := by
  have hcapacity := h.capacity
  have hbytes := h.int32_bytes (n := count) (by omega)
  cases destination with
  | false => exact ⟨[], rfl⟩
  | true =>
    have hinside : sz * p + sz * count ≤ list.itemList.length := by
      have hmul : sz * (p + count) ≤ sz * cap := Nat.mul_le_mul_left sz (by omega)
      rw [Nat.mul_add] at hmul
      rw [h.length]
      omega
    rw [copyItems, if_pos rfl, Int.add_sub_cancel, hbytes,
      fromItem_eq h.itemSize (h.mul_lt (by omega)), fetch, if_pos hinside]
    exact ⟨_, rfl⟩

theorem Rep.step_remove (h : Rep sz cap list ref) (hsz : 1 ≤ sz) {destination : Bool} {position : ℤ}
    {count : ℕ} (hin : InList sz ref (.remove destination position count)) :
    ∃ list', step list (.remove destination position count) = some (1, list') ∧
      Rep sz cap list' (refStep sz ref (.remove destination position count)) := by
  obtain ⟨hrange, hpos⟩ := hin
  have hfirst := removeAt_succ h.count (by simpa only [List.length_pos_iff] using hpos)
  rw [step, listRemoveItems, hfirst, refStep]
  dsimp only
  generalize removeAt ref.length position = p at *
  have hafter : int32 (p + 1 + count) = (p + count : ℕ) + 1 := by
    have hbound := h.bound
    have hle : cap ≤ sz * cap := Nat.le_mul_of_pos_left cap hsz
    have hcapacity := h.capacity
    have hsum : (p + 1 + count : ℤ) = (p + count + 1 : ℕ) := by
      rw [Nat.cast_add, Nat.cast_add, Nat.cast_one]
      omega
    rw [hsum, int32_natCast (by rw [sizeofListStruct] at hbound; omega), Nat.cast_add, Nat.cast_one]
  obtain ⟨copied, hcopy⟩ := h.copy hrange destination
  obtain ⟨l, hclose, hrep⟩ := h.remove hsz hrange
  refine ⟨_, ?_, hrep⟩
  rw [hafter, hcopy, Option.bind_eq_bind, Option.bind_some, hclose]
  rfl

end Steps

section Run

variable {sz cap : ℕ} {t : ListStruct × List (List UInt8)} {ops : List Op}

theorem Rep.toNat_itemSize (h : Rep sz cap t.1 t.2) : t.1.itemSize.toNat = sz := by
  rw [h.itemSize, Int.toNat_natCast]

theorem Rep.holds (h : Rep sz cap t.1 t.2) : Holds t.1 t.2 := by
  have hflat := length_flatten_items h.sizes
  obtain ⟨rest, hrest⟩ := h.contents
  refine ⟨h.count, ?_, ?_, ?_, ?_⟩
  · rw [h.count, h.listSize]
    exact_mod_cast h.capacity
  · have hmul : t.2.length * sz ≤ cap * sz := Nat.mul_le_mul_right sz h.capacity
    rw [h.toNat_itemSize, h.handleSize, itemListAt, sizeofListStruct, Nat.mul_comm sz]
    omega
  · rw [hrest, List.take_left]
  · rw [h.toNat_itemSize]
    exact h.sizes

/-- A call keeps what holds between two calls, and changes nothing when its result is 0. -/
theorem Rep.call (h : Rep sz cap t.1 t.2) (hsz : 1 ≤ sz) {op : Op} (hin : InList sz t.2 op)
    (hfits : Fits t.1 op) :
    ∃ r t' cap', call t op = some (r, t') ∧ (r = 0 → t' = t) ∧ Rep sz cap' t'.1 t'.2 := by
  have hdone : ∀ {list' cap'}, step t.1 op = some (1, list') →
      Rep sz cap' list' (refStep sz t.2 op) →
      ∃ r t' cap', Lists.call t op = some (r, t') ∧ (r = 0 → t' = t) ∧ Rep sz cap' t'.1 t'.2 := by
    intro list' cap' hstep hrep
    refine ⟨1, (list', refStep sz t.2 op), cap', ?_, fun hzero ↦ absurd hzero (by decide), hrep⟩
    rw [Lists.call, hstep, Option.map_some, if_neg (show ¬ (1 : ℤ) = 0 by decide),
      h.toNat_itemSize]
  cases op with
  | insert src position granted =>
    rcases h.step_insert hsz hin hfits with hstep | ⟨list', cap', hstep, hrep⟩
    · refine ⟨0, t, cap, ?_, fun _ ↦ rfl, h⟩
      rw [Lists.call, hstep, Option.map_some, if_pos rfl]
    · exact hdone hstep hrep
  | remove destination position count =>
    obtain ⟨list', hstep, hrep⟩ := h.step_remove hsz hin
    exact hdone hstep hrep

theorem run_append (t : ListStruct × List (List UInt8)) (front : List Op) (op : Op) :
    run t (front ++ [op]) = (run t front).bind fun t' ↦ (call t' op).map (·.2) := by
  simp only [run, List.foldlM_append, List.foldlM_cons, List.foldlM_nil, Option.bind_eq_bind,
    Option.pure_def, Option.bind_fun_some]

theorem Rep.run (h : Rep sz cap t.1 t.2) (hsz : 1 ≤ sz) (hfit : AllFit t ops) (front : List Op)
    (hfront : front <+: ops) : ∃ t' cap', run t front = some t' ∧ Rep sz cap' t'.1 t'.2 := by
  induction front using List.reverseRecOn with
  | nil => exact ⟨t, cap, rfl, h⟩
  | append_singleton front op ih =>
    obtain ⟨t', cap', hrun, hrep⟩ := ih ((List.prefix_append front [op]).trans hfront)
    obtain ⟨hin, hfits⟩ := hfit front op hfront t' hrun
    rw [hrep.toNat_itemSize] at hin
    obtain ⟨r, t'', cap'', hcall, -, hrep'⟩ := hrep.call hsz hin hfits
    refine ⟨t'', cap'', ?_, hrep'⟩
    rw [run_append, hrun, Option.bind_some, hcall, Option.map_some]

theorem Rep.listCreate {ram : List UInt8} (hram : ram.length = 4) :
    Rep sz 0 (listCreate sz ram) [] where
  itemSize := rfl
  listSize := rfl
  policy := show (0 : ℤ) ≤ 4 by decide
  count := rfl
  capacity := le_rfl
  bound := by
    rw [sizeofListStruct, Nat.mul_zero]
    decide
  length := hram
  contents := ⟨ram, rfl⟩
  sizes := fun _ h ↦ absurd h List.not_mem_nil

end Run

/-- Calls that all fit refine the reference list. -/
theorem list_refines {sz : ℕ} (hsz : 1 ≤ sz) {ram : List UInt8} (hram : ram.length = 4)
    {ops : List Op} (hfit : AllFit (listCreate sz ram, []) ops) :
    Refines (listCreate sz ram, []) ops where
  holds front hfront := by
    obtain ⟨t', cap', hrun, hrep⟩ := (Rep.listCreate hram).run hsz hfit front hfront
    exact ⟨t', hrun, hrep.holds⟩
  unchanged front op hfront t' t'' hrun hcall := by
    obtain ⟨t₁, cap', hrun₁, hrep⟩ := (Rep.listCreate hram).run hsz hfit front
      ((List.prefix_append front [op]).trans hfront)
    obtain rfl : t' = t₁ := Option.some.inj (hrun.symm.trans hrun₁)
    obtain ⟨hin, hfits⟩ := hfit front op hfront t' hrun
    rw [hrep.toNat_itemSize] at hin
    obtain ⟨r, t₂, -, hcall₂, hzero, -⟩ := hrep.call hsz hin hfits
    obtain ⟨rfl, rfl⟩ := Prod.mk.inj (Option.some.inj (hcall.symm.trans hcall₂))
    exact hzero rfl


theorem always_single {P : ListStruct × List (List UInt8) → Op → Prop}
    {t : ListStruct × List (List UInt8)} {op : Op} (hop : P t op) : Always P t [op] := by
  intro front op' hfront u hrun
  cases front with
  | nil =>
    obtain ⟨rfl, -⟩ := List.cons_prefix_cons.mp hfront
    obtain rfl : t = u := Option.some.inj hrun
    exact hop
  | cons op'' front =>
    have hnil := List.prefix_nil.mp (List.cons_prefix_cons.mp hfront).2
    exact absurd hnil (List.append_ne_nil_of_right_ne_nil front (List.cons_ne_nil op' []))

theorem always_cons {P : ListStruct × List (List UInt8) → Op → Prop}
    {t t' : ListStruct × List (List UInt8)} {op : Op} {ops : List Op} {r : ℤ} (hop : P t op)
    (hcall : call t op = some (r, t')) (hops : Always P t' ops) : Always P t (op :: ops) := by
  intro front op' hfront u hrun
  cases front with
  | nil =>
    obtain ⟨rfl, -⟩ := List.cons_prefix_cons.mp hfront
    obtain rfl : t = u := Option.some.inj hrun
    exact hop
  | cons op'' front =>
    obtain ⟨rfl, hrest⟩ := List.cons_prefix_cons.mp hfront
    refine hops front op' hrest u ?_
    rw [← hrun, run, run, List.foldlM_cons, hcall]
    rfl

/-- Two items, one in front of them, and the first two removed. -/
def sampleOps : List Op :=
  [.insert (.memory [[1], [2]]) listEnd true, .insert (.memory [[3]]) listStart true,
    .remove true 1 2]

theorem sampleOps_fit : AllFit (listCreate 1 [0, 0, 0, 0], []) sampleOps := by
  refine always_cons (r := 1)
    ⟨⟨by decide, by decide, .inr (.inl rfl)⟩, .inr ⟨by decide, .inl (by decide)⟩⟩ rfl ?_
  refine always_cons (r := 1) ⟨⟨by decide, by decide, .inl rfl⟩, .inl (by decide)⟩ rfl ?_
  exact always_single ⟨⟨by decide, .inr (.inr (by decide))⟩, trivial⟩

theorem list_refines_sample :
    AllFit (listCreate 1 [0, 0, 0, 0], []) sampleOps ∧
      Refines (listCreate 1 [0, 0, 0, 0], []) sampleOps :=
  ⟨sampleOps_fit, list_refines le_rfl rfl sampleOps_fit⟩

/-- One item, and ten more. -/
def growingOps : List Op :=
  [.insert (.memory [[1]]) listEnd true, .insert (.null 10) listEnd true]

/-- Ten items do not make a list grow that has space for four. -/
theorem grown_outside_handle :
    AllIn (listCreate 1 [0, 0, 0, 0], []) growingOps ∧
      ¬ Refines (listCreate 1 [0, 0, 0, 0], []) growingOps := by
  refine ⟨?_, fun h ↦ ?_⟩
  · refine always_cons (r := 1) ⟨by decide, by decide, .inr (.inl rfl)⟩ rfl ?_
    exact always_single ⟨by decide, by decide, .inr (.inl rfl)⟩
  · obtain ⟨t', hrun, -⟩ := h.holds growingOps List.prefix_rfl
    have hnone : run (listCreate 1 [0, 0, 0, 0], []) growingOps = none := rfl
    rw [hnone] at hrun
    exact absurd hrun (Option.some_ne_none t').symm

end UBoot.Common.Lists
