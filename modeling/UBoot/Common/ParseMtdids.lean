import UBoot.Common.IdParse

namespace UBoot.Common.ParseMtdids

open Lib.CString LibGeneric.Vsprintf CmdJffs2 IdParse

/-- The sizes of the chips in `flash_info`, and in `nand_info` where there is support for NAND. -/
structure Chips where
  flash : List UInt32
  nand : Option (List UInt32)

def deviceValidate (chips : Chips) (type : DevType) (num : UInt8) : Option UInt32 :=
  match type with
  | .nor => chips.flash[num.toNat]?
  | .nand => chips.nand.bind (·[num.toNat]?)

/-- `struct mtdids` -/
structure Entry where
  type : DevType
  num : UInt8
  size : UInt32
  mtdId : CStr
deriving DecidableEq

structure State where
  mtdids : List Entry
  lastIds : CStr
deriving DecidableEq

/-- The loop, with `ret` and the list. At the end `p` is the null pointer or the end of the string,
which is `[]` in both cases; `malloc` tells which of the calls succeed. -/
def parseLoop (chips : Chips) (malloc : ℕ → Bool) :
    ℕ → ℕ → List Entry → CStr → Option (ℕ × List Entry)
  | 0, _, _, _ => none
  | fuel + 1, ret, mtdids, p =>
    if first p = 0 then some (if ret = 1 then (1, []) else (0, mtdids))
    else
      match idParse p with
      | none => some (1, [])
      | some (p, type, num) =>
        if first p ≠ 0x3d then some (1, [])
        else
          match deviceValidate chips type num with
          -- this exit does not come to the clean-up
          | none => some (1, mtdids)
          | some size =>
            -- `mtd_id_len` counts the terminator, so it is not 0
            let (mtdId, p) := (cut (p.drop 1) 0x2c).getD (p.drop 1, [])
            if mtdids.any fun id ↦ id.type == type && id.num == num then some (1, [])
            else if malloc mtdids.length = false then some (1, [])
            else parseLoop chips malloc fuel 0 (mtdids ++ [⟨type, num, size, mtdId⟩]) p

/-- What is returned, and the variables, of which nothing is kept. -/
def parseMtdids (chips : Chips) (malloc : ℕ → Bool) (_ : State) (ids : CStr) : Option (ℕ × State) :=
  (parseLoop chips malloc (ids.length + 1) 1 [] ids).map fun (ret, mtdids) ↦ (ret, ⟨mtdids, []⟩)

/-- An item `type num = id`. -/
structure Item where
  type : DevType
  num : ℕ
  mtdId : CStr
deriving DecidableEq

def Entry.item (id : Entry) : Item := ⟨id.type, id.num.toNat, id.mtdId⟩

def IsItem (text : CStr) (i : Item) : Prop :=
  ∃ t, text = mtdDevType i.type ++ (t ++ 0x3d :: i.mtdId) ∧ Numeral t i.num ∧ 0x2c ∉ i.mtdId

/-- The text in front of a comma and what is behind it, or all of the text. -/
def Cuts (p text rest : CStr) : Prop := p = text ++ 0x2c :: rest ∨ p = text ∧ rest = []

inductive Spells : CStr → List Item → Prop
  | nil : Spells [] []
  | cons {p text rest : CStr} {i : Item} {items : List Item} : Cuts p text rest → IsItem text i →
      Spells rest items → Spells p (i :: items)

/-- All items are in the list, or none is. -/
def AllOrNothing (chips : Chips) (ids : CStr) (r : Option (ℕ × State)) : Prop :=
  (∃ s, r = some (0, s) ∧ Spells ids (s.mtdids.map Entry.item) ∧
    (s.mtdids.map fun id ↦ (id.type, id.num)).Nodup ∧
    ∀ id ∈ s.mtdids, deviceValidate chips id.type id.num = some id.size) ∨
  ∃ s, r = some (1, s) ∧ s.mtdids = [] ∧ s.lastIds = []

/-- The item is taken, with the low 8 bits of its number. -/
structure Fits (chips : Chips) (malloc : ℕ → Bool) (items : List Item) (i : Item) : Prop where
  device : (deviceValidate chips i.type (UInt8.ofNat i.num)).isSome
  new : ∀ j ∈ items, j.type = i.type → UInt8.ofNat j.num ≠ UInt8.ofNat i.num
  memory : malloc items.length = true

/-- The items in front of a place in the string have been taken. -/
inductive Taken (chips : Chips) (malloc : ℕ → Bool) (ids : CStr) : List Item → CStr → Prop
  | start : Taken chips malloc ids [] ids
  | next {items : List Item} {p text rest : CStr} {i : Item} : Taken chips malloc ids items p →
      Cuts p text rest → IsItem text i → Fits chips malloc items i →
      Taken chips malloc ids (items ++ [i]) rest

/-- Behind items that have been taken no item has a device that is not there, and numbers of more
than 8 bits are not taken up to the end. -/
structure Clean (chips : Chips) (malloc : ℕ → Bool) (ids : CStr) : Prop where
  device : ∀ items p text rest i, Taken chips malloc ids items p → items ≠ [] → Cuts p text rest →
    IsItem text i → (deviceValidate chips i.type (UInt8.ofNat i.num)).isSome
  small : ∀ items, Taken chips malloc ids items [] → ∀ i ∈ items, i.num < 256

section Grammar

variable {p text rest : CStr} {i : Item}

theorem IsItem.comma (h : IsItem text i) : 0x2c ∉ text := by
  obtain ⟨t, rfl, ht, hcomma⟩ := h
  have htype : 0x2c ∉ mtdDevType i.type := by
    cases i.type <;> decide
  have hnum : 0x2c ∉ t := ht.notMem (by decide) (by decide)
  simp [htype, hnum, hcomma]

theorem IsItem.ne_nil (h : IsItem text i) : text ≠ [] := by
  obtain ⟨t, rfl, ht, -⟩ := h
  intro hnil
  exact ht.ne_nil (List.append_eq_nil_iff.mp (List.append_eq_nil_iff.mp hnil).2).1

theorem IsItem.unique {j : Item} (h : IsItem text i) (h' : IsItem text j) : i = j := by
  obtain ⟨t, rfl, ht, -⟩ := h
  obtain ⟨u, heq, hu, -⟩ := h'
  obtain ⟨htype, hnum, hid⟩ := id_inj (by decide) (by decide) ht hu heq
  cases i
  cases j
  simp_all

theorem Cuts.eq (h : Cuts p text rest) (hcomma : 0x2c ∉ text) :
    (cut p 0x2c).getD (p, []) = (text, rest) := by
  rcases h with rfl | ⟨rfl, rfl⟩
  · rw [cut_eq_some.mpr ⟨rfl, hcomma⟩]
    rfl
  · rw [cut_eq_none.mpr hcomma]
    rfl

theorem Cuts.length_lt (h : Cuts p text rest) (hne : text ≠ []) : rest.length < p.length := by
  have hpos := List.length_pos_iff.mpr hne
  rcases h with rfl | ⟨rfl, rfl⟩
  · simp only [List.length_append, List.length_cons]
    omega
  · exact hpos

theorem Cuts.subset (h : Cuts p text rest) : rest ⊆ p := by
  rcases h with rfl | ⟨rfl, rfl⟩
  · intro c hc
    simp [hc]
  · exact List.nil_subset _

theorem Spells.unique {items items' : List Item} (h : Spells p items) (h' : Spells p items') :
    items = items' := by
  induction h generalizing items' with
  | nil =>
    cases h' with
    | nil => rfl
    | cons hcut hitem _ => exact absurd (hcut.length_lt hitem.ne_nil) (Nat.not_lt_zero _)
  | cons hcut hitem _ ih =>
    cases h' with
    | nil => exact absurd (hcut.length_lt hitem.ne_nil) (Nat.not_lt_zero _)
    | cons hcut' hitem' hrest' =>
      have heq := (hcut.eq hitem.comma).symm.trans (hcut'.eq hitem'.comma)
      rw [Prod.mk.injEq] at heq
      obtain ⟨rfl, rfl⟩ := heq
      rw [hitem.unique hitem', ih hrest']

/-- What is read as an item starts with one. -/
theorem item_of_idParse {q : CStr} {type : DevType} {num : UInt8}
    (h : idParse p = some (0x3d :: q, type, num)) :
    ∃ text rest i, Cuts p text rest ∧ IsItem text i := by
  obtain ⟨t, n, rfl, ht, -⟩ := exists_of_idParse h
  cases hcut : cut q 0x2c with
  | none =>
    refine ⟨_, [], ⟨type, n, q⟩, Or.inr ⟨rfl, rfl⟩, t, rfl, ht, cut_eq_none.mp hcut⟩
  | some r =>
    obtain ⟨id, rest⟩ := r
    obtain ⟨rfl, hcomma⟩ := cut_eq_some.mp hcut
    refine ⟨mtdDevType type ++ (t ++ 0x3d :: id), rest, ⟨type, n, id⟩, Or.inl ?_, t, rfl, ht, hcomma⟩
    simp

end Grammar

section Loop

variable {chips : Chips} {malloc : ℕ → Bool} {p text rest : CStr} {i : Item} {items : List Item}
  {fuel ret : ℕ} {mtdids : List Entry}

/-- One round of the loop at an item. -/
theorem parseLoop_item (hcut : Cuts p text rest) (hitem : IsItem text i) :
    parseLoop chips malloc (fuel + 1) ret mtdids p =
      match deviceValidate chips i.type (UInt8.ofNat i.num) with
      | none => some (1, mtdids)
      | some size =>
        if mtdids.any fun id ↦ id.type == i.type && id.num == UInt8.ofNat i.num then some (1, [])
        else if malloc mtdids.length = false then some (1, [])
        else parseLoop chips malloc fuel 0
          (mtdids ++ [⟨i.type, UInt8.ofNat i.num, size, i.mtdId⟩]) rest := by
  obtain ⟨t, htext, ht, hcomma⟩ := hitem
  -- the comma, if there is one, is behind the number
  obtain ⟨q, hp, hq⟩ : ∃ q, p = mtdDevType i.type ++ (t ++ 0x3d :: q) ∧ Cuts q i.mtdId rest := by
    rcases hcut with rfl | ⟨rfl, rfl⟩
    · exact ⟨i.mtdId ++ 0x2c :: rest, by simp [htext], Or.inl rfl⟩
    · exact ⟨i.mtdId, htext, Or.inr ⟨rfl, rfl⟩⟩
  have hfirst : first p ≠ 0 := by
    rw [hp]
    cases i.type <;> exact (by decide : (0x6e : UInt8) ≠ 0)
  have hparse : idParse p = some (0x3d :: q, i.type, UInt8.ofNat i.num) := by
    rw [hp]
    apply idParse_append i.type ht <;> rw [first_cons] <;> decide
  rw [parseLoop, if_neg hfirst, hparse]
  simp only [first_cons, ne_eq, not_true_eq_false, if_false, List.drop_one, List.tail_cons,
    hq.eq hcomma]

/-- The loop ends with the clean-up where no item starts. -/
theorem parseLoop_other (hp : first p ≠ 0) (h : ¬ ∃ text rest i, Cuts p text rest ∧ IsItem text i) :
    parseLoop chips malloc (fuel + 1) ret mtdids p = some (1, []) := by
  rw [parseLoop, if_neg hp]
  cases hparse : idParse p with
  | none => rfl
  | some r =>
    obtain ⟨q, type, num⟩ := r
    have hequal : first q ≠ 0x3d := by
      intro heq
      obtain _ | ⟨c, q⟩ := q
      · exact absurd heq (by decide)
      · rw [first_cons] at heq
        subst heq
        exact h (item_of_idParse hparse)
    simp only
    rw [if_pos hequal]

def entry (chips : Chips) (i : Item) : Entry :=
  ⟨i.type, UInt8.ofNat i.num, (deviceValidate chips i.type (UInt8.ofNat i.num)).getD 0, i.mtdId⟩

theorem any_entry (chips : Chips) : ((items.map (entry chips)).any fun id ↦
      id.type == i.type && id.num == UInt8.ofNat i.num) = true ↔
    ¬ ∀ j ∈ items, j.type = i.type → UInt8.ofNat j.num ≠ UInt8.ofNat i.num := by
  rw [List.any_map, List.any_eq_true]
  simp [entry]

theorem parseLoop_fits (hcut : Cuts p text rest) (hitem : IsItem text i)
    (h : Fits chips malloc items i) :
    parseLoop chips malloc (fuel + 1) ret (items.map (entry chips)) p =
      parseLoop chips malloc fuel 0 ((items ++ [i]).map (entry chips)) rest := by
  obtain ⟨size, hsize⟩ := Option.isSome_iff_exists.mp h.device
  have hany := (any_entry chips).not.mpr (not_not_intro h.new)
  rw [parseLoop_item hcut hitem, hsize]
  simp only
  rw [if_neg hany, if_neg (by rw [List.length_map, h.memory]; decide), List.map_append,
    List.map_singleton, entry, hsize, Option.getD_some]

/-- Where the item is not taken the loop ends, and the list is left when the device is not there. -/
theorem parseLoop_stops (hcut : Cuts p text rest) (hitem : IsItem text i)
    (h : ¬ Fits chips malloc items i) :
    parseLoop chips malloc (fuel + 1) ret (items.map (entry chips)) p =
      some (1, if (deviceValidate chips i.type (UInt8.ofNat i.num)).isSome then []
        else items.map (entry chips)) := by
  rw [parseLoop_item hcut hitem]
  cases hsize : deviceValidate chips i.type (UInt8.ofNat i.num) with
  | none => rfl
  | some size =>
    simp only [Option.isSome_some, if_true]
    by_cases hany : ((items.map (entry chips)).any fun id ↦
        id.type == i.type && id.num == UInt8.ofNat i.num) = true
    · rw [if_pos hany]
    · have hnew := not_not.mp ((any_entry chips).not.mp hany)
      have hmemory : malloc (items.map (entry chips)).length = false := by
        rw [List.length_map, ← Bool.not_eq_true]
        intro hmemory
        exact h ⟨by rw [hsize]; rfl, hnew, hmemory⟩
      rw [if_neg hany, if_pos hmemory]

end Loop

section Run

variable {chips : Chips} {malloc : ℕ → Bool} {ids p text rest : CStr} {i : Item} {items : List Item}

theorem Taken.nulFree (h : Taken chips malloc ids items p) (hids : NulFree ids) : NulFree p := by
  induction h with
  | start => exact hids
  | next _ hcut _ _ ih => exact fun c hc ↦ ih c (hcut.subset hc)

theorem Taken.spells {more : List Item} (h : Taken chips malloc ids items p) (hmore : Spells p more) :
    Spells ids (items ++ more) := by
  induction h generalizing more with
  | start => exact hmore
  | next _ hcut hitem _ ih =>
    rw [List.append_assoc]
    exact ih (.cons hcut hitem hmore)

theorem Taken.pairwise (h : Taken chips malloc ids items p) : items.Pairwise fun j i ↦
    j.type = i.type → UInt8.ofNat j.num ≠ UInt8.ofNat i.num := by
  induction h with
  | start => exact List.Pairwise.nil
  | next _ _ _ hfits ih =>
    rw [List.pairwise_append]
    refine ⟨ih, List.pairwise_singleton _ _, fun j hj i hi ↦ ?_⟩
    rw [List.mem_singleton.mp hi]
    exact hfits.new j hj

theorem Taken.device (h : Taken chips malloc ids items p) : ∀ i ∈ items,
    (deviceValidate chips i.type (UInt8.ofNat i.num)).isSome := by
  induction h with
  | start => exact fun _ hi ↦ absurd hi List.not_mem_nil
  | next _ _ _ hfits ih =>
    intro i hi
    rcases List.mem_append.mp hi with hin | hlast
    · exact ih i hin
    · rw [List.mem_singleton.mp hlast]
      exact hfits.device

def retOf (items : List Item) : ℕ := if items = [] then 1 else 0

/-- The run comes to the place behind the items that are taken. -/
theorem Taken.run (h : Taken chips malloc ids items p) : ∃ fuel, p.length ≤ fuel ∧
    parseLoop chips malloc (ids.length + 1) 1 [] ids =
      parseLoop chips malloc (fuel + 1) (retOf items) (items.map (entry chips)) p := by
  induction h with
  | start => exact ⟨ids.length, le_rfl, rfl⟩
  | @next items p text rest i _ hcut hitem hfits ih =>
    obtain ⟨fuel, hfuel, hrun⟩ := ih
    have hlt := hcut.length_lt hitem.ne_nil
    obtain ⟨fuel, rfl⟩ := Nat.exists_eq_succ_of_ne_zero (show fuel ≠ 0 by omega)
    have hret : retOf (items ++ [i]) = 0 := if_neg (by simp)
    refine ⟨fuel, by omega, ?_⟩
    rw [hrun, parseLoop_fits hcut hitem hfits, hret]

/-- There is a last place that the loop comes to. -/
theorem exists_last (chips : Chips) (malloc : ℕ → Bool) (ids : CStr) :
    ∃ items p, Taken chips malloc ids items p ∧ ∀ text rest i, Cuts p text rest → IsItem text i →
      ¬ Fits chips malloc items i := by
  have hfrom : ∀ n items p, p.length < n → Taken chips malloc ids items p →
      ∃ items p, Taken chips malloc ids items p ∧ ∀ text rest i, Cuts p text rest → IsItem text i →
        ¬ Fits chips malloc items i := by
    intro n
    induction n with
    | zero => exact fun _ _ hlt ↦ absurd hlt (Nat.not_lt_zero _)
    | succ n ih =>
      intro items p hlt htaken
      by_cases hstop : ∀ text rest i, Cuts p text rest → IsItem text i → ¬ Fits chips malloc items i
      · exact ⟨items, p, htaken, hstop⟩
      · simp only [not_forall, not_not] at hstop
        obtain ⟨text, rest, i, hcut, hitem, hfits⟩ := hstop
        have hshort := hcut.length_lt hitem.ne_nil
        exact ih (items ++ [i]) rest (by omega) (htaken.next hcut hitem hfits)
  exact hfrom (ids.length + 1) [] ids (Nat.lt_succ_self _) .start

theorem parseMtdids_end (s : State) (h : Taken chips malloc ids items []) :
    parseMtdids chips malloc s ids =
      some (if items = [] then (1, ⟨[], []⟩) else (0, ⟨items.map (entry chips), []⟩)) := by
  obtain ⟨fuel, -, hrun⟩ := h.run
  have hend : parseLoop chips malloc (fuel + 1) (retOf items) (items.map (entry chips)) [] =
      some (if retOf items = 1 then (1, []) else (0, items.map (entry chips))) := by
    rw [parseLoop]
    exact if_pos rfl
  rw [parseMtdids, hrun, hend, retOf]
  by_cases hnil : items = []
  · simp [hnil]
  · simp [hnil]

theorem parseMtdids_stops (s : State) (h : Taken chips malloc ids items p) (hcut : Cuts p text rest)
    (hitem : IsItem text i) (hfits : ¬ Fits chips malloc items i) :
    parseMtdids chips malloc s ids =
      some (1, ⟨if (deviceValidate chips i.type (UInt8.ofNat i.num)).isSome then []
        else items.map (entry chips), []⟩) := by
  obtain ⟨fuel, -, hrun⟩ := h.run
  rw [parseMtdids, hrun, parseLoop_stops hcut hitem hfits]
  rfl

theorem parseMtdids_other (s : State) (h : Taken chips malloc ids items p) (hp : first p ≠ 0)
    (hother : ¬ ∃ text rest i, Cuts p text rest ∧ IsItem text i) :
    parseMtdids chips malloc s ids = some (1, ⟨[], []⟩) := by
  obtain ⟨fuel, -, hrun⟩ := h.run
  rw [parseMtdids, hrun, parseLoop_other hp hother]
  rfl

/-- The entries are the items when their numbers have 8 bits. -/
theorem entries_of_taken (h : Taken chips malloc ids items []) (hsmall : ∀ i ∈ items, i.num < 256) :
    Spells ids ((items.map (entry chips)).map Entry.item) ∧
      ((items.map (entry chips)).map fun id ↦ (id.type, id.num)).Nodup ∧
      ∀ id ∈ items.map (entry chips), deviceValidate chips id.type id.num = some id.size := by
  refine ⟨?_, ?_, ?_⟩
  · have hself : (items.map (entry chips)).map Entry.item = items := by
      rw [List.map_map]
      conv_rhs => rw [← List.map_id items]
      apply List.map_congr_left
      intro i hi
      have hnum : (UInt8.ofNat i.num).toNat = i.num := UInt8.toNat_ofNat_of_lt' (hsmall i hi)
      simp [Entry.item, entry, hnum]
    have hspells := h.spells .nil
    rwa [List.append_nil, ← hself] at hspells
  · rw [List.map_map, List.Nodup, List.pairwise_map]
    apply h.pairwise.imp
    intro i j hne heq
    rw [Function.comp_apply, Function.comp_apply, Prod.mk.injEq] at heq
    exact hne heq.1 heq.2
  · intro id hid
    obtain ⟨i, hi, rfl⟩ := List.mem_map.mp hid
    obtain ⟨size, hsize⟩ := Option.isSome_iff_exists.mp (h.device i hi)
    simp [entry, hsize]

theorem clean_of_allOrNothing (s : State)
    (h : AllOrNothing chips ids (parseMtdids chips malloc s ids)) : Clean chips malloc ids := by
  refine ⟨fun items p text rest i htaken hne hcut hitem ↦ ?_, fun items htaken i hi ↦ ?_⟩
  · by_contra hdevice
    rw [parseMtdids_stops s htaken hcut hitem fun hfits ↦ hdevice hfits.device, if_neg hdevice] at h
    rcases h with ⟨s', hs', -⟩ | ⟨s', hs', hnil, -⟩
    · cases hs'
    · cases hs'
      exact hne (List.map_eq_nil_iff.mp hnil)
  · have hne : items ≠ [] := List.ne_nil_of_mem hi
    rw [parseMtdids_end s htaken, if_neg hne] at h
    rcases h with ⟨s', hs', hspells, -⟩ | ⟨s', hs', -⟩
    · cases hs'
      have hsame := hspells.unique (htaken.spells .nil)
      rw [List.append_nil, List.map_map] at hsame
      have hself : (entry chips i).item = i :=
        List.map_inj_left.mp (hsame.trans (List.map_id items).symm) i hi
      rw [← hself]
      exact UInt8.toNat_lt _
    · cases hs'

theorem allOrNothing_of_clean (s : State) (hids : NulFree ids) (h : Clean chips malloc ids) :
    AllOrNothing chips ids (parseMtdids chips malloc s ids) := by
  obtain ⟨items, p, htaken, hlast⟩ := exists_last chips malloc ids
  by_cases hitem : ∃ text rest i, Cuts p text rest ∧ IsItem text i
  · obtain ⟨text, rest, i, hcut, hitem⟩ := hitem
    rw [parseMtdids_stops s htaken hcut hitem (hlast text rest i hcut hitem)]
    refine Or.inr ⟨_, rfl, ?_, rfl⟩
    by_cases hnil : items = []
    · rw [hnil, List.map_nil, ite_self]
    · exact if_pos (h.device items p text rest i htaken hnil hcut hitem)
  · by_cases hp : first p = 0
    · have hend : p = [] := by
        by_contra hne
        exact htaken.nulFree hids _ (first_mem hne) hp
      subst hend
      rw [parseMtdids_end s htaken]
      by_cases hnil : items = []
      · rw [if_pos hnil]
        exact Or.inr ⟨_, rfl, rfl, rfl⟩
      · rw [if_neg hnil]
        exact Or.inl ⟨_, rfl, entries_of_taken htaken (h.small items htaken)⟩
    · rw [parseMtdids_other s htaken hp hitem]
      exact Or.inr ⟨_, rfl, rfl, rfl⟩

end Run

theorem parse_mtdids_iff (chips : Chips) (malloc : ℕ → Bool) (s : State) (ids : CStr)
    (hids : NulFree ids) :
    AllOrNothing chips ids (parseMtdids chips malloc s ids) ↔ Clean chips malloc ids :=
  ⟨clean_of_allOrNothing s, allOrNothing_of_clean s hids⟩

section Sample

/-- One flash chip of 8 MiB. -/
def sampleChips : Chips := ⟨[8388608], none⟩

theorem parse_mtdids_iff_one : Clean sampleChips (fun _ ↦ true) (ascii "nor0=flash") := by
  apply (parse_mtdids_iff sampleChips (fun _ ↦ true) ⟨[], []⟩ (ascii "nor0=flash") (by decide)).mp
  have hrun : parseMtdids sampleChips (fun _ ↦ true) ⟨[], []⟩ (ascii "nor0=flash") =
      some (0, ⟨[⟨.nor, 0, 8388608, ascii "flash"⟩], []⟩) := by
    decide +kernel
  refine Or.inl ⟨_, hrun, ?_, by decide, by decide +kernel⟩
  have hitem : IsItem (ascii "nor0=flash") ⟨.nor, 0, ascii "flash"⟩ :=
    ⟨ascii "0", rfl, .oct (t := []) (by decide +kernel), by decide⟩
  exact .cons (Or.inr ⟨rfl, rfl⟩) hitem .nil

/-- The second device is not there; the number of the only one has 9 bits. -/
theorem parse_mtdids_partial :
    ¬ AllOrNothing sampleChips (ascii "nor0=flash,nor1=more")
      (parseMtdids sampleChips (fun _ ↦ true) ⟨[], []⟩ (ascii "nor0=flash,nor1=more")) ∧
    ∃ s, parseMtdids sampleChips (fun _ ↦ true) ⟨[], []⟩ (ascii "nor256=flash") = some (0, s) ∧
      s.mtdids.map Entry.item = [⟨.nor, 0, ascii "flash"⟩] := by
  refine ⟨?_, ⟨[⟨.nor, 0, 8388608, ascii "flash"⟩], []⟩, by decide +kernel, rfl⟩
  have hrun : parseMtdids sampleChips (fun _ ↦ true) ⟨[], []⟩ (ascii "nor0=flash,nor1=more") =
      some (1, ⟨[⟨.nor, 0, 8388608, ascii "flash"⟩], []⟩) := by
    decide +kernel
  rw [hrun]
  rintro (⟨s, hs, -⟩ | ⟨s, hs, hnil, -⟩)
  · cases hs
  · cases hs
    cases hnil

end Sample

end UBoot.Common.ParseMtdids
