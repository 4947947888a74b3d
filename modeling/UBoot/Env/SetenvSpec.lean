import UBoot.Env.Nvedit
import Mathlib.Data.List.Chain

namespace UBoot.Env.SetenvSpec

open Lib.CString Layout Nvedit LibGeneric.Crc32

theorem envmatch_entry (a b : List UInt8) (v : Var) {name : CStr} (hn : NulFree name) :
    envmatch (a ++ (v.entry ++ 0 :: b)) name a.length =
      some (if v.name = entryName name then some (a.length + v.name.length + 1) else none) := by
  obtain ⟨key, value, hkey, hvalue⟩ := v
  simp only [Var.entry]
  clear hvalue
  induction key generalizing a name with
  | nil =>
    cases name with
    | nil => simp [envmatch, eqSign, entryName]
    | cons c s =>
      by_cases hc : c = eqSign
      · simp [envmatch, hc, entryName]
      · simp [envmatch, hc, entryName]
  | cons x key ih =>
    obtain ⟨hx0, hxe⟩ := hkey x (by simp)
    have hkey' : ∀ c ∈ key, c ≠ 0 ∧ c ≠ eqSign := fun c hc ↦ hkey c (by simp [hc])
    cases name with
    | nil => simp [envmatch, hx0, hxe, entryName]
    | cons c s =>
      by_cases hcx : c = x
      · subst hcx
        have hs : NulFree s := fun y hy ↦ hn y (by simp [hy])
        have hr := ih (a ++ [c]) hs hkey'
        simp only [List.length_append, List.length_cons, List.length_nil, List.append_assoc,
          List.cons_append, List.nil_append] at hr
        simp only [envmatch, List.cons_append, List.append_assoc, peek_append, Option.bind_some,
          if_neg hxe, if_true, List.length_cons, hr, entryName_cons_ne hxe, List.cons.injEq, true_and]
        congr 2
        congr 1
        omega
      · have hne : x :: key ≠ entryName (c :: s) := by
          by_cases hce : c = eqSign
          · subst hce
            simp [entryName_eqSign]
          · rw [entryName_cons_ne hce]
            intro h
            exact hcx (List.cons.inj h).1.symm
        simp [envmatch, hcx, hne]

theorem drop_length_append (a b : List UInt8) : (a ++ b).drop a.length = b := by simp

theorem peek_entry (a b : List UInt8) (v : Var) :
    ∃ c, c ≠ 0 ∧ (a ++ (v.entry ++ 0 :: b))[a.length]? = some c := by
  obtain ⟨c, e, he⟩ := List.exists_cons_of_ne_nil v.entry_ne_nil
  refine ⟨c, v.entry_nulFree c (by simp [he]), ?_⟩
  rw [he, List.cons_append, peek_append]

theorem search_skip (a b : List UInt8) (v : Var) {name : CStr} (hn : NulFree name)
    (hv : v.name ≠ entryName name) (fuel nxt : ℕ) :
    search (a ++ (v.entry ++ 0 :: b)) name (fuel + 1) a.length nxt =
      search (a ++ (v.entry ++ 0 :: b)) name fuel (a.length + v.entry.length + 1)
        (a.length + v.entry.length) := by
  obtain ⟨c, hc, hpeek⟩ := peek_entry a b v
  simp only [search, hpeek, Option.bind_some, if_neg hc, drop_length_append,
    strlen_append v.entry _ v.entry_nulFree, envmatch_entry a b v hn, if_neg hv]

theorem search_hit (a b : List UInt8) (v : Var) {name : CStr} (hn : NulFree name)
    (hv : v.name = entryName name) (fuel nxt : ℕ) :
    search (a ++ (v.entry ++ 0 :: b)) name (fuel + 1) a.length nxt =
      some ⟨a.length, a.length + v.entry.length, some (a.length + v.name.length + 1)⟩ := by
  obtain ⟨c, hc, hpeek⟩ := peek_entry a b v
  simp only [search, hpeek, Option.bind_some, if_neg hc, drop_length_append,
    strlen_append v.entry _ v.entry_nulFree, envmatch_entry a b v hn, if_pos hv]

theorem search_block (a b : List UInt8) (vs : List Var) {name : CStr} (hn : NulFree name)
    (h : ∀ v ∈ vs, v.name ≠ entryName name) (fuel nxt : ℕ) :
    ∃ nxt', search (a ++ (block vs ++ b)) name (fuel + vs.length) a.length nxt =
      search (a ++ (block vs ++ b)) name fuel (a.length + (block vs).length) nxt' := by
  induction vs generalizing a nxt with
  | nil => exact ⟨nxt, rfl⟩
  | cons v vs ih =>
    obtain ⟨nxt', hr⟩ := ih (a ++ (v.entry ++ [0])) (fun u hu ↦ h u (by simp [hu]))
      (a.length + v.entry.length)
    have hs := search_skip a (block vs ++ b) v hn (h v (by simp)) (fuel + vs.length) nxt
    refine ⟨nxt', ?_⟩
    simp only [block_cons, List.append_assoc, List.cons_append, List.nil_append,
      List.length_append, List.length_cons, List.length_nil, Nat.zero_add] at hr ⊢
    rw [← Nat.add_assoc, hs, Nat.add_assoc, hr]
    congr 1
    omega

/-- No entry has the name: the search ends at the second NUL of the double NUL. -/
theorem search_none (b : List UInt8) (vs : List Var) {name : CStr} (hn : NulFree name)
    (h : ∀ v ∈ vs, v.name ≠ entryName name) (fuel : ℕ) (hf : vs.length < fuel) :
    ∃ nxt', search (block vs ++ 0 :: b) name fuel 0 0 = some ⟨(block vs).length, nxt', none⟩ := by
  obtain ⟨nxt', hr⟩ := search_block [] (0 :: b) vs hn h (fuel - vs.length) 0
  refine ⟨nxt', ?_⟩
  obtain ⟨k, hk⟩ : ∃ k, fuel - vs.length = k + 1 := ⟨fuel - vs.length - 1, by omega⟩
  rw [hk, show k + 1 + vs.length = fuel by omega] at hr
  simp only [List.nil_append, List.length_nil, Nat.zero_add] at hr
  rw [hr]
  simp [search]

theorem search_some (b : List UInt8) (vs ws : List Var) (v : Var) {name : CStr}
    (hn : NulFree name) (h : ∀ u ∈ vs, u.name ≠ entryName name) (hv : v.name = entryName name)
    (fuel : ℕ) (hf : vs.length < fuel) :
    ∃ val, search (block (vs ++ v :: ws) ++ 0 :: b) name fuel 0 0 =
      some ⟨(block vs).length, (block vs).length + v.entry.length, some val⟩ := by
  obtain ⟨nxt', hr⟩ := search_block [] (v.entry ++ 0 :: (block ws ++ 0 :: b)) vs hn h
    (fuel - vs.length) 0
  obtain ⟨k, hk⟩ : ∃ k, fuel - vs.length = k + 1 := ⟨fuel - vs.length - 1, by omega⟩
  rw [hk, show k + 1 + vs.length = fuel by omega] at hr
  simp only [List.nil_append, List.length_nil, Nat.zero_add] at hr
  rw [search_hit (block vs) _ v hn hv] at hr
  exact ⟨_, by simpa using hr⟩

/-- A run of entries: it ends in a NUL and has no double NUL inside. -/
def Entries (w : List UInt8) : Prop := w.getLast? = some 0 ∧ w.IsChain (fun a b ↦ a ≠ 0 ∨ b ≠ 0)

theorem entries_entry (v : Var) : Entries (v.entry ++ [0]) := by
  refine ⟨by simp, ?_⟩
  have hn := v.entry_nulFree
  generalize v.entry = e at hn
  induction e with
  | nil => simp
  | cons c e ih =>
    have he := ih (fun x hx ↦ hn x (by simp [hx]))
    cases e with
    | nil => simp [hn c (by simp)]
    | cons c' e =>
      rw [List.cons_append, List.cons_append, List.isChain_cons_cons]
      exact ⟨.inl (hn c (by simp)), he⟩

theorem entries_block {vs : List Var} (h : vs ≠ []) : Entries (block vs) := by
  induction vs with
  | nil => exact absurd rfl h
  | cons v vs ih =>
    have hv := entries_entry v
    cases vs with
    | nil => simpa using hv
    | cons u vs =>
      obtain ⟨hl, hc⟩ := ih (by simp)
      obtain ⟨c, e, he⟩ := List.exists_cons_of_ne_nil u.entry_ne_nil
      have hc0 : c ≠ 0 := u.entry_nulFree c (by simp [he])
      have hb : block (u :: vs) = c :: (e ++ 0 :: block vs) := by simp [he]
      rw [block_cons, List.append_cons]
      refine ⟨?_, ?_⟩
      · rw [hb] at hl ⊢
        rw [List.getLast?_append, hl, Option.some_or]
      · rw [hb] at hc ⊢
        exact hv.2.append hc (by simp [hc0])

/-- The copy loop moves a run of entries down over the deleted bytes. -/
theorem shiftDown_entries (a x w b : List UInt8) (hx : x ≠ []) (hw : Entries w) (fuel : ℕ)
    (hf : w.length ≤ fuel) :
    ∃ x', x'.length = x.length ∧ shiftDown fuel (a ++ (x ++ (w ++ 0 :: b))) a.length
      (a.length + x.length) = some (a ++ (w ++ (x' ++ 0 :: b)), a.length + w.length - 1) := by
  induction w generalizing a x fuel with
  | nil => simp [Entries] at hw
  | cons c w ih =>
    obtain _ | fuel := fuel
    · simp at hf
    obtain _ | ⟨y, x⟩ := x
    · exact absurd rfl hx
    have hread : (a ++ (y :: x ++ (c :: w ++ 0 :: b)))[a.length + (y :: x).length]? = some c := by
      simp
    have hpoke : poke (a ++ (y :: x ++ (c :: w ++ 0 :: b))) a.length c =
        some (a ++ (c :: (x ++ (c :: w ++ 0 :: b)))) := poke_append a _ y c
    cases w with
    | nil =>
      obtain rfl : c = 0 := by simpa [Entries] using hw
      have hnext : (a ++ ((0 : UInt8) :: (x ++ (0 :: [] ++ 0 :: b))))[a.length + (y :: x).length + 1]? =
          some 0 := by
        simp [Nat.add_assoc]
      refine ⟨x ++ [0], by simp, ?_⟩
      simp only [shiftDown, hread, hpoke, hnext, Option.bind_some, if_true]
      simp
    | cons c' w =>
      obtain ⟨hl, hch⟩ := hw
      rw [List.isChain_cons_cons] at hch
      have hw' : Entries (c' :: w) := ⟨by simpa using hl, hch.2⟩
      obtain ⟨x', hlen, hr⟩ := ih (a ++ [c]) (x ++ [c]) (by simp) hw' fuel (by simpa using hf)
      refine ⟨x', by simpa using hlen, ?_⟩
      have hnext : (a ++ (c :: (x ++ (c :: c' :: w ++ 0 :: b))))[a.length + (y :: x).length + 1]? =
          some c' := by
        simpa [Nat.add_assoc] using peek_append (a ++ (c :: x) ++ [c]) (w ++ 0 :: b) c'
      have hstep : shiftDown (fuel + 1) (a ++ (y :: x ++ (c :: c' :: w ++ 0 :: b))) a.length
          (a.length + (y :: x).length) = shiftDown fuel (a ++ (c :: (x ++ (c :: c' :: w ++ 0 :: b))))
            (a.length + 1) (a.length + (y :: x).length + 1) := by
        simp only [shiftDown, hread, hpoke, hnext, Option.bind_some]
        obtain hc | hc := hch.1
        · rw [if_neg hc]
        · rw [if_neg hc, ite_self]
      rw [hstep]
      simp only [List.append_assoc, List.cons_append, List.nil_append, List.length_append,
        List.length_cons, List.length_nil] at hr ⊢
      rw [show a.length + (x.length + 1) + 1 = a.length + (0 + 1) + (x.length + (0 + 1)) by omega,
        show a.length + 1 = a.length + (0 + 1) by omega, hr]
      congr 2
      omega

theorem block_pos (v : Var) (vs : List Var) : 0 < (block (v :: vs)).length := by
  rw [block_cons, List.length_append, List.length_cons]
  omega

/-- What `*++nxt` reads: the first byte behind the NUL of the entry. -/
theorem peek_behind (vs ws : List Var) (v : Var) (b : List UInt8) :
    (block (vs ++ v :: ws) ++ b)[(block vs).length + v.entry.length + 1]? =
      (block ws ++ b).head? := by
  have hd : block (vs ++ v :: ws) ++ b = (block vs ++ v.entry ++ [0]) ++ (block ws ++ b) := by simp
  have hi : (block vs).length + v.entry.length + 1 = (block vs ++ v.entry ++ [0]).length := by
    simp [Nat.add_assoc]
  rw [hd, hi, List.getElem?_append_right le_rfl, Nat.sub_self, List.head?_eq_getElem?]

theorem deleteEntry_only (v : Var) (b : List UInt8) :
    ∃ r, deleteEntry (block [v] ++ 0 :: b) 0 v.entry.length = some (0 :: 0 :: r) ∧
      (0 :: 0 :: r : List UInt8).length = (block [v] ++ 0 :: b).length := by
  obtain ⟨c, e, he⟩ := List.exists_cons_of_ne_nil v.entry_ne_nil
  have hread : (block [v] ++ 0 :: b)[v.entry.length + 1]? = some 0 := by simp
  have hd : block [v] ++ 0 :: b = c :: (e ++ 0 :: 0 :: b) := by simp [he]
  obtain ⟨y, r, hy⟩ : ∃ y r, e ++ 0 :: 0 :: b = y :: r := by
    cases e with
    | nil => exact ⟨_, _, rfl⟩
    | cons y e => exact ⟨_, _, rfl⟩
  refine ⟨r, ?_, by rw [hd, hy]; rfl⟩
  simp only [deleteEntry, hread, Option.bind_some, if_true, Nat.lt_irrefl, if_false]
  rw [hd, hy]
  simp [poke]

/-- The last entry: its first byte becomes the second NUL, the rest of it stays behind. -/
theorem deleteEntry_last (u v : Var) (vs : List Var) (b : List UInt8) {c : UInt8} {e : CStr}
    (he : v.entry = c :: e) :
    deleteEntry (block (u :: vs ++ [v]) ++ 0 :: b) (block (u :: vs)).length
        ((block (u :: vs)).length + v.entry.length) =
      some (block (u :: vs) ++ 0 :: (e ++ 0 :: 0 :: b)) := by
  have hpos := block_pos u vs
  have hread := peek_behind (u :: vs) [] v (0 :: b)
  have hd : block (u :: vs ++ [v]) ++ 0 :: b = block (u :: vs) ++ c :: (e ++ 0 :: 0 :: b) := by
    simp [he]
  simp only [deleteEntry, hread, block_nil, List.nil_append, List.head?_cons, Option.bind_some,
    if_true, if_pos hpos, Nat.sub_add_cancel hpos]
  rw [hd, poke_append]

/-- Any other entry: the copy loop closes the gap and the second NUL is written behind it. -/
theorem shiftDown_block (vs ws : List Var) (u v : Var) (b : List UInt8) :
    ∃ y r, (shiftDown (block (vs ++ v :: u :: ws) ++ 0 :: b).length
        (block (vs ++ v :: u :: ws) ++ 0 :: b) (block vs).length
        ((block vs).length + v.entry.length + 1)) =
          some (block (vs ++ u :: ws) ++ y :: r, (block (vs ++ u :: ws)).length - 1) ∧
      (block (vs ++ u :: ws) ++ y :: r).length = (block (vs ++ v :: u :: ws) ++ 0 :: b).length := by
  have hd : block (vs ++ v :: u :: ws) ++ 0 :: b =
      block vs ++ ((v.entry ++ [0]) ++ (block (u :: ws) ++ 0 :: b)) := by simp
  have hlen : (block (u :: ws)).length ≤ (block (vs ++ v :: u :: ws) ++ 0 :: b).length := by
    rw [hd]
    simp only [List.length_append, List.length_cons]
    omega
  obtain ⟨x, hx, hshift⟩ := shiftDown_entries (block vs) (v.entry ++ [0]) (block (u :: ws)) b
    (by simp) (entries_block (by simp)) _ hlen
  obtain ⟨y, x, rfl⟩ := List.exists_cons_of_length_pos (l := x) (by simp [hx])
  have hi : (block vs).length + (v.entry ++ [0]).length =
      (block vs).length + v.entry.length + 1 := by simp [Nat.add_assoc]
  rw [hi, ← hd] at hshift
  refine ⟨y, x ++ 0 :: b, ?_, ?_⟩
  · rw [hshift, block_append, List.length_append]
    simp only [List.append_assoc, List.cons_append]
  · rw [hd, block_append]
    simp only [List.length_append, List.length_cons, List.length_nil] at hx ⊢
    omega

theorem deleteEntry_inner (vs ws : List Var) (u v : Var) (b : List UInt8) :
    ∃ r, deleteEntry (block (vs ++ v :: u :: ws) ++ 0 :: b) (block vs).length
        ((block vs).length + v.entry.length) = some (block (vs ++ u :: ws) ++ 0 :: r) ∧
      (block (vs ++ u :: ws) ++ 0 :: r).length = (block (vs ++ v :: u :: ws) ++ 0 :: b).length := by
  obtain ⟨c, e, he⟩ := List.exists_cons_of_ne_nil u.entry_ne_nil
  have hc : c ≠ 0 := u.entry_nulFree c (by simp [he])
  have hread := peek_behind vs (u :: ws) v (0 :: b)
  obtain ⟨y, r, hshift, hlen⟩ := shiftDown_block vs ws u v b
  have hpos : 0 < (block (vs ++ u :: ws)).length := by
    have := block_pos u ws
    rw [block_append, List.length_append]
    omega
  refine ⟨r, ?_, by simpa using hlen⟩
  have hhead : (block (u :: ws) ++ 0 :: b).head? = some c := by simp [he]
  simp only [deleteEntry, hread, hhead, Option.bind_some, if_neg hc, hshift,
    Nat.sub_add_cancel hpos, poke_append]

theorem deleteEntry_image (vs ws : List Var) (v : Var) (b : List UInt8) :
    ∃ d, deleteEntry (block (vs ++ v :: ws) ++ 0 :: b) (block vs).length
        ((block vs).length + v.entry.length) = some d ∧
      d.length = (block (vs ++ v :: ws) ++ 0 :: b).length ∧ image (vs ++ ws) <+: d := by
  cases ws with
  | nil =>
    cases vs with
    | nil =>
      obtain ⟨r, hr, hl⟩ := deleteEntry_only v b
      exact ⟨0 :: 0 :: r, by simpa using hr, by simpa using hl, ⟨r, rfl⟩⟩
    | cons u vs =>
      obtain ⟨c, e, he⟩ := List.exists_cons_of_ne_nil v.entry_ne_nil
      refine ⟨_, deleteEntry_last u v vs b he, by simp [he], ⟨e ++ 0 :: 0 :: b, ?_⟩⟩
      simp [image]
  | cons u ws =>
    obtain ⟨r, hr, hl⟩ := deleteEntry_inner vs ws u v b
    exact ⟨_, hr, hl, ⟨r, by rw [image_of_ne_nil (by simp), List.append_assoc]; rfl⟩⟩

/-- The scan for the double NUL stops at the NUL of the last entry. -/
theorem endScan_entries {w : List UInt8} (hw : Entries w) (b : List UInt8) :
    endScan (w ++ 0 :: b) = some (w.length - 1) := by
  induction w with
  | nil => simp [Entries] at hw
  | cons c w ih =>
    cases w with
    | nil =>
      obtain rfl : c = 0 := by simpa [Entries] using hw
      simp [endScan]
    | cons c' w =>
      obtain ⟨hl, hch⟩ := hw
      rw [List.isChain_cons_cons] at hch
      have hr := ih ⟨by simpa using hl, hch.2⟩
      simp only [List.cons_append] at hr ⊢
      simp only [endScan, if_pos hch.1, hr, Option.map_some, List.length_cons]
      rfl

theorem endScan_image {vs : List Var} {d : List UInt8} (h : image vs <+: d) :
    ∃ e, endScan d = some e ∧ (if 0 < e then e + 1 else e) = (block vs).length := by
  cases vs with
  | nil =>
    obtain ⟨b, rfl⟩ := h
    exact ⟨0, by simp [image, endScan], by simp⟩
  | cons v vs =>
    obtain ⟨b, rfl⟩ := exists_block_of_image h
    refine ⟨_, endScan_entries (entries_block (by simp)) b, ?_⟩
    obtain ⟨c, e, he⟩ := List.exists_cons_of_ne_nil v.entry_ne_nil
    have hlen : 2 ≤ (block (v :: vs)).length := by
      rw [block_cons, he]
      simp only [List.length_append, List.length_cons]
      omega
    rw [if_pos (by omega)]
    omega

/-- The bytes the argument loop writes, each argument behind its separator. -/
def argBytes (sep : UInt8) : List CStr → CStr
  | [] => []
  | a :: as => sep :: (a ++ argBytes 0x20 as)

/-- The arguments joined by single spaces. -/
def joined (args : List CStr) : CStr := List.intercalate [0x20] args

theorem argBytes_cons (sep : UInt8) (a : CStr) (as : List CStr) :
    argBytes sep (a :: as) = sep :: joined (a :: as) := by
  induction as generalizing sep a with
  | nil => simp [argBytes, joined, List.intercalate]
  | cons a' as ih =>
    rw [argBytes, ih]
    simp [joined, List.intercalate]

theorem entryLen_eq (name : CStr) (sep : UInt8) (args : List CStr) :
    entryLen name (args.map some) = some (name.length + (argBytes sep args).length + 2) := by
  induction args generalizing sep with
  | nil => simp [entryLen, argBytes]
  | cons a as ih =>
    simp only [List.map_cons, entryLen, Option.bind_some, ih 0x20, Option.map_some, argBytes,
      List.length_cons, List.length_append]
    congr 1
    omega

theorem storeArgs_eq (p x : List UInt8) (sep : UInt8) (args : List CStr)
    (h : (argBytes sep args).length ≤ x.length) :
    storeArgs (p ++ 0 :: x) p.length sep (args.map some) =
      some (p ++ argBytes sep args ++ 0 :: x.drop (argBytes sep args).length,
        p.length + (argBytes sep args).length) := by
  induction args generalizing p x sep with
  | nil => simp [storeArgs, argBytes]
  | cons a as ih =>
    simp only [argBytes, List.length_cons, List.length_append] at h
    have hs := store_append (p ++ [sep]) x a (by omega)
    have hr := ih (p ++ [sep] ++ a) (x.drop (a.length + 1)) 0x20 (by
      rw [List.length_drop]
      omega)
    simp only [List.append_assoc, List.cons_append, List.nil_append, List.length_append,
      List.length_cons, List.length_nil, Nat.zero_add] at hs hr
    simp only [List.map_cons, storeArgs, Option.bind_some, poke_append, hs, argBytes,
      List.length_cons, List.length_append, List.append_assoc, List.cons_append]
    rw [show p.length + 1 + a.length = p.length + (a.length + 1) by omega, hr, List.drop_drop,
      show a.length + 1 + (argBytes 0x20 as).length = a.length + (argBytes 0x20 as).length + 1 by omega]
    congr 2
    omega

/-- Appending: refused exactly when the entry and the double NUL do not fit behind the others,
and otherwise the entry becomes the last one. -/
theorem append_image {vs : List Var} {d : List UInt8} (h : image vs <+: d) (w : Var)
    {name : CStr} {args : List CStr} (hw : w.entry = name ++ argBytes eqSign args) :
    (d.length < (block vs).length + w.entry.length + 2 → append d name (args.map some) = some none) ∧
    ((block vs).length + w.entry.length + 2 ≤ d.length → ∃ d',
      append d name (args.map some) = some (some d') ∧ d'.length = d.length ∧
        image (vs ++ [w]) <+: d') := by
  obtain ⟨e, he, henv⟩ := endScan_image h
  obtain ⟨b, rfl⟩ := exists_block_of_image h
  have hlen : w.entry.length = name.length + (argBytes eqSign args).length := by simp [hw]
  constructor
  · intro hlt
    simp only [append, he, entryLen_eq name eqSign args, Option.bind_some, henv]
    rw [if_pos (by omega)]
  · intro hle
    simp only [List.length_append, List.length_cons] at hle
    have hs := store_append (block vs) (0 :: b) name (by simp only [List.length_cons]; omega)
    simp only [List.drop_succ_cons] at hs
    have ha := storeArgs_eq (block vs ++ name) (b.drop name.length) eqSign args (by
      rw [List.length_drop]
      omega)
    rw [List.length_append, List.drop_drop] at ha
    obtain ⟨y, r, hr⟩ : ∃ y r, b.drop (name.length + (argBytes eqSign args).length) = y :: r := by
      apply List.exists_cons_of_length_pos
      rw [List.length_drop]
      omega
    rw [hr] at ha
    refine ⟨block (vs ++ [w]) ++ 0 :: r, ?_, ?_, ?_⟩
    · simp only [append, he, entryLen_eq name eqSign args, Option.bind_some, henv]
      rw [if_neg (by simp only [List.length_append, List.length_cons]; omega), hs]
      simp only [Option.bind_some, ha]
      have hp := poke_append (block vs ++ name ++ argBytes eqSign args ++ [0]) r y 0
      simp only [List.length_append, List.length_cons, List.length_nil, List.append_assoc,
        List.cons_append, List.nil_append] at hp
      simp only [List.append_assoc, Nat.add_assoc, Nat.zero_add] at hp ⊢
      rw [hp]
      simp [hw]
    · have hb := congrArg List.length hr
      rw [List.length_drop, List.length_cons] at hb
      simp only [block_append, block_cons, block_nil, List.length_append, List.length_cons,
        List.length_nil]
      omega
    · exact ⟨r, by rw [image_of_ne_nil (by simp), List.append_assoc]; rfl⟩

end UBoot.Env.SetenvSpec
