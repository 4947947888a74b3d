import UBoot.Common.FtMerge

namespace UBoot.Common.FtSpace

open Lib.CString Lib.Memory Lib.StringTable FtBuild FtEncoding FtWithin FtBlob FtMerge

/-- A call of the builder. A blob to merge is given with what its root holds. -/
inductive Step where
  | call (call : FtCall)
  | merge (blob : ℕ) (body : List FtCall)
  | backtrack

def perform (cxt : FtCxt) : Step → Option FtCxt
  | .call call => cxt.call call
  | .merge blob _ => ftMergeBlob cxt blob
  | .backtrack => some (ftBacktrackNode cxt)

/-- The items, if the last one is the end of a node that is taken back. -/
def reopened (items : List FtCall) : Option (List FtCall) :=
  match items.getLast? with
  | some .endNode => some items.dropLast
  | _ => none

/-- What a step makes of the items of the structure. -/
def refStep (items : List FtCall) : Step → List FtCall
  | .call call => items ++ [call]
  | .merge _ body =>
    ((reopened items).map (· ++ (repeated body ++ [.endNode]))).getD items
  | .backtrack => (reopened items).getD items

def reference (steps : List Step) : List FtCall := steps.foldl refStep []

/-- The names of the properties, each of them once. -/
def nameTable (items : List FtCall) : List CStr :=
  items.foldl (fun table call ↦
    match call with
    | .prop name _ => intern table name
    | _ => table) []

/-- The bytes that items take, with the names of the properties. -/
def space (items : List FtCall) : ℕ := (items.map size).sum + (packed (nameTable items)).length

/-- The bytes between the reserved areas and the end of the buffer. -/
def room (start : FtCxt) : ℕ := start.pstrBegin - start.pBegin

section Space

variable {items : List FtCall}

theorem nameTable_concat (items : List FtCall) (call : FtCall) :
    nameTable (items ++ [call]) =
      match call with
      | .prop name _ => intern (nameTable items) name
      | _ => nameTable items := by
  rw [nameTable, List.foldl_append]
  rfl

theorem packed_length_le_intern (table : List CStr) (name : CStr) :
    (packed table).length ≤ (packed (intern table name)).length := by
  rw [intern]
  split_ifs
  · exact le_rfl
  · rw [packed_cons_length]
    exact Nat.le_add_left _ _

theorem space_le_concat (items : List FtCall) (call : FtCall) :
    space items ≤ space (items ++ [call]) := by
  have hnames : (packed (nameTable items)).length ≤
      (packed (nameTable (items ++ [call]))).length := by
    rw [nameTable_concat]
    cases call with
    | prop name data => exact packed_length_le_intern _ name
    | _ => exact le_rfl
  rw [space, space, List.map_append, List.sum_append]
  exact Nat.add_le_add (Nat.le_add_right _ _) hnames

theorem space_le_append (items more : List FtCall) : space items ≤ space (items ++ more) := by
  induction more generalizing items with
  | nil => rw [List.append_nil]
  | cons call more ih =>
    have hrest := ih (items ++ [call])
    rw [List.append_assoc, List.singleton_append] at hrest
    exact (space_le_concat items call).trans hrest

end Space

/-- The structure and the table hold what they should, and nothing else. -/
def Lays (cxt : FtCxt) (items : List FtCall) : Prop :=
  ∃ es, es.map Prod.fst = items ∧ Laid cxt es (nameTable items)

section Calls

variable {start cxt cxt' : FtCxt} {items calls : List FtCall} {call : FtCall}

theorem Lays.overflow (h : Lays cxt items) : cxt.overflow = false := by
  obtain ⟨es, -, hlaid⟩ := h
  exact hlaid.overflow

theorem Lays.within (h : Lays cxt items) (hframe : Frame start cxt) : Within start cxt := by
  obtain ⟨es, -, hlaid⟩ := h
  exact Within.of_built hlaid hframe

theorem Lays.free (h : Lays cxt items) (hframe : Frame start cxt) :
    space items + (cxt.pstr - cxt.p) = room start := by
  obtain ⟨es, rfl, hlaid⟩ := h
  have hp := hlaid.p_eq
  have hle := hlaid.p_le
  have hpstr := hlaid.pstr_eq
  have hbegin := hframe.pBegin
  have hend := hframe.pstrBegin
  rw [encodeAll_length] at hp
  rw [space, room]
  omega

theorem Lays.p_le (h : Lays cxt items) : cxt.p ≤ cxt.pstr := by
  obtain ⟨es, -, hlaid⟩ := h
  exact hlaid.p_le

theorem space_concat_of_ne (hne : ∀ name data, call ≠ .prop name data) (items : List FtCall) :
    nameTable (items ++ [call]) = nameTable items ∧
      space (items ++ [call]) = space items + size call := by
  have hnames : nameTable (items ++ [call]) = nameTable items := by
    rw [nameTable_concat]
    cases call with
    | prop name data => exact absurd rfl (hne name data)
    | _ => rfl
  refine ⟨hnames, ?_⟩
  rw [space, space, hnames, List.map_append, List.sum_append, List.map_singleton,
    List.sum_singleton]
  omega

theorem Lays.put (h : Lays cxt items) (hframe : Frame start cxt) (hname : Terminated call)
    (hputs : Puts cxt cxt' (encode 0 call)) (hfills : Fills cxt cxt' (encode 0 call))
    (hne : ∀ name data, call ≠ .prop name data) :
    Lays cxt' (items ++ [call]) ∨ cxt'.overflow = true ∧ room start < space (items ++ [call]) := by
  have hfree := h.free hframe
  have hle := h.p_le
  have hiff := hputs.overflow_iff hfills h.overflow
  obtain ⟨hnames, hspace⟩ := space_concat_of_ne hne items
  obtain ⟨es, rfl, hlaid⟩ := h
  rw [encode_length] at hiff
  rcases hlaid.put hputs hname fun name data heq ↦ absurd heq (hne name data) with
    hover | ⟨hlaid', -⟩
  · refine .inr ⟨hover, ?_⟩
    rw [hover] at hiff
    have hroom := (iff_false_left (by decide)).mp hiff
    omega
  · refine .inl ⟨es ++ [(call, 0)], List.map_append, ?_⟩
    rw [hnames]
    exact hlaid'

/-- A call makes its item, or the item does not fit. -/
theorem Lays.of_call (h : Lays cxt items) (hframe : Frame start cxt) (hname : Terminated call) :
    ∃ cxt', cxt.call call = some cxt' ∧
      (Lays cxt' (items ++ [call]) ∨ cxt'.overflow = true ∧ room start < space (items ++ [call])) := by
  have hmod : cxt.p % 4 = 0 := (h.within hframe).aligned
  cases call with
  | beginNode name =>
    exact ⟨_, rfl, h.put hframe hname (puts_beginNode name hmod 0) (fills_beginNode name hmod 0)
      (fun _ _ h ↦ by cases h)⟩
  | endNode =>
    exact ⟨_, rfl, h.put hframe hname (puts_word _ _) (fills_word _ _) (fun _ _ h ↦ by cases h)⟩
  | nop =>
    exact ⟨_, rfl, h.put hframe hname (puts_word _ _) (fills_word _ _) (fun _ _ h ↦ by cases h)⟩
  | prop name data =>
    have hnames := nameTable_concat items (.prop name data)
    obtain ⟨es, rfl, hlaid⟩ := h
    obtain ⟨cxt', hprop, hiff, hlaid'⟩ := ftProp_laid hlaid data hname
    refine ⟨cxt', hprop, ?_⟩
    rcases hlaid' with hover | ⟨off, hlaid', -⟩
    · refine .inr ⟨hover, ?_⟩
      rw [hover] at hiff
      have hroom := (iff_false_left (by decide)).mp hiff
      have hp := hlaid.p_eq
      have hle := hlaid.p_le
      have hpstr := hlaid.pstr_eq
      have hbegin := hframe.pBegin
      have hend := hframe.pstrBegin
      rw [encodeAll_length] at hp
      rw [space, hnames, room, List.map_append, List.sum_append, List.map_singleton,
        List.sum_singleton]
      dsimp only
      omega
    · refine .inl ⟨es ++ [(.prop name data, off)], List.map_append, ?_⟩
      rw [hnames]
      exact hlaid'

theorem calls_overflow (h : cxt.overflow = true) (calls : List FtCall) :
    calls.foldlM FtCxt.call cxt = some cxt := by
  induction calls with
  | nil => rfl
  | cons call calls ih =>
    rw [List.foldlM_cons, call_overflow h call]
    exact ih

/-- The same for several calls: one that does not fit is the last that does anything. -/
theorem Lays.of_calls (h : Lays cxt items) (hw : Within start cxt) (hnames : ∀ c ∈ calls, Terminated c) :
    ∃ cxt', calls.foldlM FtCxt.call cxt = some cxt' ∧ Within start cxt' ∧
      (Lays cxt' (items ++ calls) ∨ cxt'.overflow = true ∧ room start < space (items ++ calls)) := by
  induction calls generalizing cxt items with
  | nil =>
    rw [List.append_nil]
    exact ⟨cxt, rfl, hw, .inl h⟩
  | cons call calls ih =>
    obtain ⟨hname, hrest⟩ := List.forall_mem_cons.mp hnames
    have hassoc : items ++ call :: calls = items ++ [call] ++ calls := by
      rw [List.append_assoc, List.singleton_append]
    obtain ⟨cxt₁, hcall, hlays | ⟨hover, hlt⟩⟩ := h.of_call hw.frame hname
    · rw [List.foldlM_cons, hcall, hassoc]
      exact ih hlays (hw.call hcall) hrest
    · refine ⟨cxt₁, ?_, hw.call hcall, .inr ⟨hover, ?_⟩⟩
      · rw [List.foldlM_cons, hcall]
        exact calls_overflow hover calls
      · rw [hassoc]
        exact hlt.trans_le (space_le_append _ _)

end Calls

section Back

variable {start cxt cxt' : FtCxt} {items : List FtCall}

/-- A property whose last word is that of the end of a node. -/
def EndsLikeNode : FtCall → Prop
  | .prop _ data => be32 ofDtEndNode <:+ padded data
  | _ => False

theorem reopened_eq_some {items items' : List FtCall} :
    reopened items = some items' ↔ items = items' ++ [.endNode] := by
  rcases items.eq_nil_or_concat' with rfl | ⟨front, call, rfl⟩
  · exact iff_of_false (fun h ↦ by cases h) fun h ↦ by simp at h
  · rw [reopened, List.getLast?_concat]
    cases call with
    | endNode =>
      dsimp only
      rw [List.dropLast_concat, Option.some_inj]
      exact (List.append_left_inj _).symm
    | _ => exact iff_of_false (fun h ↦ by cases h) fun h ↦ by simp at h

theorem load32_of_last_zero {m : Mem} {p : ℕ} (h : m (p + 3) = 0) : load32 m p ≠ ofDtEndNode := by
  have hlow : load16 m (p + 2) = (m (p + 2)).toNat * 256 := by
    rw [load16, h, UInt8.toNat_zero, Nat.add_zero]
  rw [load32, hlow, ofDtEndNode]
  omega

theorem encode_beginNode_last (name : CStr) (off : ℕ) :
    ∃ front, encode off (.beginNode name) = front ++ [0] := by
  refine ⟨be32 ofDtBeginNode ++
    (name ++ List.replicate ((4 - (name ++ [0]).length % 4) % 4) 0), ?_⟩
  rw [encode, padded, List.append_assoc _ _ [0], List.append_assoc name _ [0],
    List.append_assoc name [0], ← List.replicate_succ', List.replicate_succ]
  rfl

/-- The last word in front of `p` tells whether a node ends there. -/
theorem Lays.reopened_of_word (h : Lays cxt items) (hzero : load32 cxt.mem (cxt.pBegin - 4) = 0)
    (hlike : ∀ c ∈ items.getLast?, ¬ EndsLikeNode c)
    (hword : load32 cxt.mem (cxt.p - 4) = ofDtEndNode) : ∃ items', reopened items = some items' := by
  obtain ⟨es, rfl, hlaid⟩ := h
  have hp := hlaid.p_eq
  rcases es.eq_nil_or_concat' with rfl | ⟨es, ⟨call, off⟩, rfl⟩
  · rw [encodeAll, List.flatMap_nil, List.length_nil, Nat.add_zero] at hp
    rw [hp, hzero] at hword
    exact absurd hword (by decide)
  have hstruct := hlaid.struct
  have hsize := four_le_size call
  rw [encodeAll_concat] at hstruct hp
  rw [List.length_append, encode_length] at hp
  have hlast := (bytes_eq_append hstruct).2
  rw [List.map_append, List.map_singleton] at hlike ⊢
  rw [List.getLast?_concat] at hlike
  have hnot := hlike call rfl
  cases call with
  | endNode => exact ⟨_, reopened_eq_some.mpr rfl⟩
  | nop =>
    have hat : cxt.p - 4 = cxt.pBegin + (encodeAll es).length := by
      rw [size] at hp
      omega
    rw [hat, (load32_head (b := []) hlast).1] at hword
    exact absurd hword (by decide)
  | beginNode name =>
    obtain ⟨front, hfront⟩ := encode_beginNode_last name off
    have hlen := congrArg List.length hfront
    rw [encode_length, List.length_append, List.length_singleton] at hlen
    rw [hfront] at hlast
    have hbyte := (bytes_eq_append hlast).2
    have hat : cxt.p - 4 + 3 = cxt.pBegin + (encodeAll es).length + front.length := by omega
    have hend : cxt.mem (cxt.p - 4 + 3) = 0 := by
      rw [hat]
      exact apply_of_bytes (i := 0) hbyte (by decide)
    exact absurd hword (load32_of_last_zero hend)
  | prop name data =>
    have hvalue := (load32_head (load32_head (load32_head hlast).2).2).2
    have hoff := (load32_head (load32_head (load32_head hlast).2).2).1
    cases data with
    | nil =>
      -- the last word is an offset of at least the 12 bytes that are in front of it
      have hin : (FtCall.prop name [], off) ∈ es ++ [(FtCall.prop name [], off)] :=
        List.mem_append_right _ (List.mem_singleton_self _)
      have hle := hlaid.p_le
      obtain ⟨hge, hlt⟩ := off_le hlaid (by omega) hin
      have hfour : (12 : ℕ) + align ([] : List UInt8).length 4 = 12 := rfl
      rw [size, hfour] at hp
      have hat : cxt.p - 4 = cxt.pBegin + (encodeAll es).length + 4 + 4 := by omega
      rw [hat, hoff, Nat.mod_eq_of_lt hlt, ofDtEndNode] at hword
      omega
    | cons x data =>
      have hlen := padded_length (x :: data)
      have hpos : 4 ≤ align (x :: data).length 4 := by
        rw [align, List.length_cons]
        omega
      rw [size] at hp
      refine absurd ⟨(padded (x :: data)).take ((padded (x :: data)).length - 4), ?_⟩ hnot
      have hsplit := List.take_append_drop ((padded (x :: data)).length - 4) (padded (x :: data))
      have hback : ((padded (x :: data)).drop ((padded (x :: data)).length - 4)).length = 4 := by
        rw [List.length_drop]
        omega
      have hfour := (bytes_eq_append (hvalue.trans hsplit.symm)).2
      rw [hback, List.length_take] at hfour
      have hat : cxt.pBegin + (encodeAll es).length + 4 + 4 + 4 +
          min ((padded (x :: data)).length - 4) (padded (x :: data)).length = cxt.p - 4 := by omega
      rw [hat, bytes_four, hword] at hfour
      rw [hfour]
      exact hsplit

theorem Lays.back {items' : List FtCall} (h : Lays cxt items) (hback : reopened items = some items') :
    load32 cxt.mem (cxt.p - 4) = ofDtEndNode ∧ Lays { cxt with p := cxt.p - 4 } items' := by
  obtain ⟨es, hmap, hlaid⟩ := h
  rw [reopened_eq_some.mp hback] at hmap hlaid
  obtain ⟨es', es₂, rfl, rfl, hmap₂⟩ := List.map_eq_append_iff.mp hmap
  obtain ⟨⟨call, off⟩, rest, rfl, hcall, hnil⟩ := List.map_eq_cons_iff.mp hmap₂
  cases hcall
  cases List.map_eq_nil_iff.mp hnil
  rw [nameTable_concat] at hlaid
  obtain ⟨htag, hlaid'⟩ := laid_back hlaid
  exact ⟨htag, es', rfl, hlaid'⟩

theorem Lays.reopen (h : Lays cxt items) (hzero : load32 cxt.mem (cxt.pBegin - 4) = 0)
    (hlike : ∀ c ∈ items.getLast?, ¬ EndsLikeNode c) :
    load32 cxt.mem (cxt.p - 4) ≠ ofDtEndNode ∧ reopened items = none ∨
      load32 cxt.mem (cxt.p - 4) = ofDtEndNode ∧
        ∃ items', reopened items = some items' ∧ Lays { cxt with p := cxt.p - 4 } items' := by
  by_cases hword : load32 cxt.mem (cxt.p - 4) = ofDtEndNode
  · obtain ⟨items', hback⟩ := h.reopened_of_word hzero hlike hword
    exact .inr ⟨hword, items', hback, (h.back hback).2⟩
  · refine .inl ⟨hword, Option.eq_none_iff_forall_ne_some.mpr fun items' hback ↦ ?_⟩
    exact hword (h.back hback).1

end Back

end UBoot.Common.FtSpace
