import Mathlib.Data.Finset.Card
import Mathlib.Data.Fintype.BigOperators
import UBoot.Common.FtMerge

namespace UBoot.Common.FtGetProp

open Lib.CString Lib.Memory Lib.StringTable FtBuild FtEncoding FtBlob FtMerge

/-- The names of the open nodes, innermost first, as a path. -/
def nodePath : List CStr → CStr
  | [] => []
  | name :: nodes => nodePath nodes ++ (name ++ [slash])

/-- The names of the top-level nodes that have ended, and the open nodes. -/
structure Place where
  left : CStr
  nodes : List CStr

namespace Place

/-- `path` as the reader has it. -/
def path (pl : Place) : CStr := pl.left ++ nodePath pl.nodes

def enter (pl : Place) (name : CStr) : Place := ⟨pl.left, name :: pl.nodes⟩

def leave (pl : Place) : Place :=
  match pl.nodes with
  | [] => pl
  | [name] => ⟨pl.left ++ name, []⟩
  | _ :: nodes => ⟨pl.left, nodes⟩

def top : Place := ⟨[], []⟩

end Place

/-- A property: its full path, its data and where they are. -/
structure Written where
  left : CStr
  path : CStr
  addr : ℕ
  data : List UInt8

def written : Place → ℕ → List FtCall → List Written
  | _, _, [] => []
  | pl, p, .beginNode name :: calls => written (pl.enter name) (p + size (.beginNode name)) calls
  | pl, p, .endNode :: calls => written pl.leave (p + size .endNode) calls
  | pl, p, .nop :: calls => written pl (p + size .nop) calls
  | pl, p, .prop name data :: calls =>
    ⟨pl.left, nodePath pl.nodes ++ name, p + 12, data⟩ ::
      written pl (p + size (.prop name data)) calls

/-- No path that is read, up to the property that is sought, is longer than the arrays. -/
def short (sought : Option CStr) : Place → List FtCall → Bool
  | _, [] => true
  | pl, .beginNode name :: calls =>
    decide ((pl.enter name).path.length < 256) && short sought (pl.enter name) calls
  | pl, .endNode :: calls => short sought pl.leave calls
  | pl, .nop :: calls => short sought pl calls
  | pl, .prop name _ :: calls =>
    decide ((pl.path ++ name).length < 256) &&
      (some (pl.path ++ name) == sought || short sought pl calls)

/-- `ft_get_prop` returns the first property written with the path. -/
def FindsFirst (m : Mem) (bph : ℕ) (ws : List Written) (path : CStr) : Prop :=
  ftGetProp m bph path =
      some ((ws.find? (·.path == path)).map fun w ↦ (w.addr, w.data.length)) ∧
    ∀ w ∈ ws.find? (·.path == path), bytes m w.addr w.data.length = w.data

def Reads (m : Mem) (bph : ℕ) (ws : List Written) : Prop :=
  ∀ path, NulFree path → path.length < 256 → FindsFirst m bph ws path

/-- What stands behind a named top-level node repeats, under its own path and under the path that
is read, what stands in front of it. -/
def Shadowed (ws : List Written) : Prop :=
  ∀ w ∈ ws, w.left ≠ [] → (∃ v ∈ ws, v.left = [] ∧ v.path = w.path) ∧
    ∃ v ∈ ws, v.left = [] ∧ v.path = w.left ++ w.path

section Path

variable {pl : Place} {a name : CStr}

theorem strrchr_append (hname : slash ∉ name) :
    strrchr (a ++ slash :: name) slash = some a.length := by
  have hnone : name.reverse.findIdx? (· == slash) = none := strchr_reverse_eq_none.mpr hname
  rw [strrchr, strchr, List.reverse_append, List.reverse_cons, List.append_assoc,
    List.findIdx?_append, hnone, Option.none_or, List.singleton_append, List.findIdx?_cons,
    if_pos (by decide), Option.map_some, Option.map_some, List.length_append, List.length_cons,
    List.length_reverse]
  congr 1
  omega

theorem strrchr_none (h : slash ∉ a) : strrchr a slash = none := by
  rw [strrchr, Option.map_eq_none_iff]
  exact strchr_reverse_eq_none.mpr h

/-- No name has a slash. -/
structure Place.Clean (pl : Place) : Prop where
  left : slash ∉ pl.left
  nodes : ∀ name ∈ pl.nodes, slash ∉ name

theorem Place.Clean.enter (h : pl.Clean) (hname : slash ∉ name) : (pl.enter name).Clean :=
  ⟨h.left, List.forall_mem_cons.mpr ⟨hname, h.nodes⟩⟩

theorem Place.Clean.leave (h : pl.Clean) : pl.leave.Clean := by
  obtain ⟨left, nodes⟩ := pl
  obtain _ | ⟨name, _ | ⟨outer, nodes⟩⟩ := nodes
  · exact h
  · refine ⟨?_, fun name hname ↦ absurd hname List.not_mem_nil⟩
    rw [Place.leave, List.mem_append, not_or]
    exact ⟨h.left, h.nodes name List.mem_cons_self⟩
  · exact ⟨h.left, (List.forall_mem_cons.mp h.nodes).2⟩

/-- The name of a top-level node stays in `path`: there is no slash to go back to. -/
theorem leavePath_path (h : pl.Clean) (hne : pl.nodes ≠ []) :
    pl.path ≠ [] ∧ leavePath pl.path = pl.leave.path := by
  obtain ⟨left, nodes⟩ := pl
  obtain _ | ⟨name, nodes⟩ := nodes
  · exact absurd rfl hne
  have hname : slash ∉ name := h.nodes name List.mem_cons_self
  have hpath : Place.path ⟨left, name :: nodes⟩ = (left ++ (nodePath nodes ++ name)) ++ [slash] := by
    rw [Place.path, nodePath, List.append_assoc, List.append_assoc]
  rw [hpath]
  refine ⟨List.append_ne_nil_of_right_ne_nil _ (List.cons_ne_nil _ _), ?_⟩
  rw [leavePath, List.dropLast_concat]
  cases nodes with
  | nil =>
    have hnot : slash ∉ left ++ (nodePath [] ++ name) := by
      rw [List.mem_append, not_or]
      exact ⟨h.left, hname⟩
    rw [strrchr_none hnot]
    exact (List.append_nil _).symm
  | cons outer nodes =>
    have hsplit : left ++ (nodePath (outer :: nodes) ++ name) =
        (left ++ (nodePath nodes ++ outer)) ++ slash :: name := by
      simp [nodePath]
    rw [hsplit, strrchr_append hname]
    dsimp only
    rw [List.take_length_add_append]
    simp [Place.leave, Place.path, nodePath]

end Path

section Reader

variable {m : Mem} {p pStrings fuel : ℕ} {q : CStr} {es : List (FtCall × ℕ)} {pl : Place}

theorem nesting_endNode {nodes : List CStr} {calls : List FtCall}
    (h : nesting nodes (.endNode :: calls) ≠ none) :
    nodes ≠ [] ∧ nesting nodes.tail calls ≠ none := by
  cases nodes with
  | nil => exact absurd rfl h
  | cons name nodes => exact ⟨List.cons_ne_nil _ _, h⟩

theorem leave_nodes (pl : Place) : pl.leave.nodes = pl.nodes.tail := by
  obtain ⟨left, nodes⟩ := pl
  obtain _ | ⟨name, _ | ⟨outer, nodes⟩⟩ := nodes <;> rfl

theorem strcat_eq (a b : CStr) :
    strcat 256 a b = if (a ++ b).length < 256 then some (a ++ b) else none := rfl

/-- The reader finds the first property whose path it reads as `q`, unless it meets a path that is
too long. -/
theorem getPropLoop_spec (h : Readable m p pStrings es) (hclean : pl.Clean)
    (hnest : nesting pl.nodes (es.map Prod.fst) ≠ none) (hfuel : es.length < fuel) :
    getPropLoop m pStrings 0x10 q fuel pl.path p =
      if short (some q) pl (es.map Prod.fst) then
        some (((written pl p (es.map Prod.fst)).find? fun w ↦ w.left ++ w.path == q).map
          fun w ↦ (w.addr, w.data.length))
      else none := by
  induction es generalizing p pl fuel with
  | nil =>
    obtain ⟨fuel, rfl⟩ := Nat.exists_eq_add_one.mpr hfuel
    rw [getPropLoop]
    dsimp only
    rw [h.struct.of_nil, if_pos rfl]
    rfl
  | cons e es ih =>
    obtain ⟨fuel, rfl⟩ := Nat.exists_eq_add_one.mpr (Nat.zero_lt_of_lt hfuel)
    have hlt : es.length < fuel := Nat.lt_of_succ_lt_succ hfuel
    obtain ⟨call, off⟩ := e
    have hnamed : Named call := h.named _ List.mem_cons_self
    rw [getPropLoop, List.map_cons]
    dsimp only
    cases call with
    | beginNode name =>
      obtain ⟨htag, hstring, -, halign⟩ := h.struct.beginNode hnamed.1
      have hpath : pl.path ++ name ++ [slash] = (pl.enter name).path := by
        rw [Place.path, Place.path, Place.enter, nodePath, List.append_assoc, List.append_assoc]
      have hle : (pl.path ++ name).length < (pl.enter name).path.length := by
        simp only [← hpath, List.length_append, List.length_singleton]
        omega
      rw [htag, if_neg (by decide), if_pos rfl, hstring, Option.bind_eq_bind, Option.bind_some,
        halign, strcat_eq, short]
      by_cases hshort : (pl.enter name).path.length < 256
      · rw [if_pos (hle.trans hshort), Option.bind_some, strcat_eq, hpath, if_pos hshort,
          Option.bind_some, decide_eq_true hshort, Bool.true_and]
        exact ih h.tail (hclean.enter hnamed.2) hnest hlt
      · rw [decide_eq_false hshort, Bool.false_and, if_neg Bool.false_ne_true]
        by_cases hname : (pl.path ++ name).length < 256
        · rw [if_pos hname, Option.bind_some, strcat_eq, hpath, if_neg hshort]
          rfl
        · rw [if_neg hname]
          rfl
    | endNode =>
      obtain ⟨hne, hrest⟩ := nesting_endNode hnest
      obtain ⟨hpath, hleave⟩ := leavePath_path hclean hne
      rw [← leave_nodes] at hrest
      rw [h.struct.endNode, if_neg (by decide), if_neg (by decide), if_pos rfl, if_neg hpath,
        hleave]
      exact ih h.tail hclean.leave hrest hlt
    | nop =>
      rw [h.struct.nop, if_neg (by decide), if_neg (by decide), if_neg (by decide), if_pos rfl]
      exact ih h.tail hclean hnest hlt
    | prop name data =>
      obtain ⟨htag, hsz, hoff, -, halign⟩ := h.struct.prop
      have hofflt := h.off_lt name data off List.mem_cons_self
      have hversion : ¬ (0x10 < 0x10 ∧ 8 ≤ data.length ∧ data.length < 2147483648) :=
        fun h ↦ absurd h.1 (lt_irrefl _)
      rw [Nat.mod_eq_of_lt hofflt] at hoff
      rw [htag, if_neg (by decide), if_neg (by decide), if_neg (by decide), if_neg (by decide),
        if_neg (not_not.mpr rfl), hoff, h.strings name data off List.mem_cons_self,
        Option.bind_eq_bind, Option.bind_some, hsz, if_neg hversion, halign, strcat_eq, short,
        written, List.find?_cons]
      dsimp only
      have hread : pl.left ++ (nodePath pl.nodes ++ name) = pl.path ++ name := by
        rw [Place.path, List.append_assoc]
      rw [hread]
      by_cases hshort : (pl.path ++ name).length < 256
      · rw [if_pos hshort, Option.bind_some, decide_eq_true hshort, Bool.true_and]
        by_cases hq : pl.path ++ name = q
        · rw [if_pos hq, hq, beq_self_eq_true, beq_self_eq_true, Bool.true_or, if_pos rfl]
          rfl
        · have hq' : (some (pl.path ++ name) == some q) = false :=
            beq_eq_false_iff_ne.mpr fun h ↦ hq (Option.some.inj h)
          rw [if_neg hq, beq_eq_false_iff_ne.mpr hq, hq', Bool.false_or]
          exact ih h.tail hclean hnest hlt
      · rw [if_neg hshort, decide_eq_false hshort, Bool.false_and, if_neg Bool.false_ne_true]
        rfl

theorem written_data (h : Readable m p pStrings es) (pl : Place) :
    ∀ w ∈ written pl p (es.map Prod.fst), bytes m w.addr w.data.length = w.data := by
  induction es generalizing p pl with
  | nil => exact fun w hw ↦ absurd hw List.not_mem_nil
  | cons e es ih =>
    obtain ⟨call, off⟩ := e
    cases call with
    | beginNode name => exact ih h.tail _
    | endNode => exact ih h.tail _
    | nop => exact ih h.tail _
    | prop name data =>
      obtain ⟨-, -, -, hdata, -⟩ := h.struct.prop
      exact List.forall_mem_cons.mpr ⟨hdata, ih h.tail pl⟩

/-- `ft_get_prop` on a finished tree. -/
theorem ftGetProp_eq {bph pStruct stop : ℕ} (h : Blob m bph pStruct stop es)
    (hnest : WellNested (es.map Prod.fst)) (q : CStr) :
    ftGetProp m bph q = if short (some q) .top (es.map Prod.fst) then
        some (((written .top pStruct (es.map Prod.fst)).find? fun w ↦ w.left ++ w.path == q).map
          fun w ↦ (w.addr, w.data.length))
      else none := by
  have hclean : Place.top.Clean := ⟨List.not_mem_nil, fun name hname ↦ absurd hname List.not_mem_nil⟩
  have hsome : nesting Place.top.nodes (es.map Prod.fst) ≠ none := by
    have htop : nesting Place.top.nodes (es.map Prod.fst) = some [] := hnest
    rw [htop]
    exact Option.some_ne_none _
  rw [ftGetProp, h.pStruct_eq, h.version]
  exact getPropLoop_spec h.readable hclean hsome h.struct.length_lt

end Reader

section Paths

variable {pl : Place} {p : ℕ} {q : CStr} {calls : List FtCall}

theorem written_addr (pl : Place) (p : ℕ) (calls : List FtCall) :
    (∀ w ∈ written pl p calls, p < w.addr) ∧
      (written pl p calls).Pairwise fun v w ↦ v.addr < w.addr := by
  induction calls generalizing pl p with
  | nil => exact ⟨fun w hw ↦ absurd hw List.not_mem_nil, .nil⟩
  | cons call calls ih =>
    have hrest (pl' : Place) : (∀ w ∈ written pl' (p + size call) calls, p < w.addr) ∧
        (written pl' (p + size call) calls).Pairwise fun v w ↦ v.addr < w.addr :=
      ⟨fun w hw ↦ (Nat.le_add_right _ _).trans_lt ((ih pl' _).1 w hw), (ih pl' _).2⟩
    cases call with
    | beginNode name => exact hrest _
    | endNode => exact hrest _
    | nop => exact hrest _
    | prop name data =>
      have hsize : p + 12 ≤ p + size (.prop name data) :=
        Nat.add_le_add_left (Nat.le_add_right _ _) p
      refine ⟨List.forall_mem_cons.mpr ⟨by dsimp only; omega, (hrest pl).1⟩,
        .cons (fun w hw ↦ ?_) (hrest pl).2⟩
      exact hsize.trans_lt ((ih pl _).1 w hw)

theorem leave_left (h : pl.left ≠ []) : pl.leave.left ≠ [] := by
  obtain ⟨left, nodes⟩ := pl
  obtain _ | ⟨name, _ | ⟨outer, nodes⟩⟩ := nodes
  · exact h
  · exact List.append_ne_nil_of_left_ne_nil h _
  · exact h

/-- What has been left in front of the paths stays there. -/
theorem written_left (pl : Place) (p : ℕ) (calls : List FtCall) :
    (∀ w ∈ written pl p calls, pl.left ≠ [] → w.left ≠ []) ∧
      (written pl p calls).Pairwise fun v w ↦ v.left ≠ [] → w.left ≠ [] := by
  induction calls generalizing pl p with
  | nil => exact ⟨fun w hw ↦ absurd hw List.not_mem_nil, .nil⟩
  | cons call calls ih =>
    cases call with
    | beginNode name => exact ih _ _
    | endNode => exact ⟨fun w hw h ↦ (ih _ _).1 w hw (leave_left h), (ih _ _).2⟩
    | nop => exact ih _ _
    | prop name data =>
      exact ⟨List.forall_mem_cons.mpr ⟨id, (ih pl _).1⟩, .cons (ih pl _).1 (ih pl _).2⟩

theorem written_length (pl : Place) (p : ℕ) (calls : List FtCall) :
    (written pl p calls).length ≤ calls.length := by
  induction calls generalizing pl p with
  | nil => exact le_rfl
  | cons call calls ih =>
    cases call with
    | beginNode name => exact (ih _ _).trans (Nat.le_succ _)
    | endNode => exact (ih _ _).trans (Nat.le_succ _)
    | nop => exact (ih _ _).trans (Nat.le_succ _)
    | prop name data => exact Nat.succ_le_succ (ih _ _)

theorem nodePath_nulFree {nodes : List CStr} (h : ∀ name ∈ nodes, NulFree name) :
    NulFree (nodePath nodes) := by
  induction nodes with
  | nil => exact fun c hc ↦ absurd hc List.not_mem_nil
  | cons name nodes ih =>
    obtain ⟨hname, hrest⟩ := List.forall_mem_cons.mp h
    have hslash : NulFree [slash] := by decide
    exact NulFree.append (ih hrest) (NulFree.append hname hslash)

theorem written_nulFree (hcalls : ∀ c ∈ calls, Named c) (hleft : NulFree pl.left)
    (hnodes : ∀ name ∈ pl.nodes, NulFree name) :
    ∀ w ∈ written pl p calls, NulFree w.left ∧ NulFree w.path := by
  induction calls generalizing pl p with
  | nil => exact fun w hw ↦ absurd hw List.not_mem_nil
  | cons call calls ih =>
    obtain ⟨hcall, hrest⟩ := List.forall_mem_cons.mp hcalls
    cases call with
    | beginNode name => exact ih hrest hleft (List.forall_mem_cons.mpr ⟨hcall.1, hnodes⟩)
    | endNode =>
      have hnodes' : ∀ name ∈ pl.leave.nodes, NulFree name := by
        rw [leave_nodes]
        exact fun name hname ↦ hnodes name (List.mem_of_mem_tail hname)
      refine ih hrest ?_ hnodes'
      obtain ⟨left, nodes⟩ := pl
      obtain _ | ⟨name, _ | ⟨outer, nodes⟩⟩ := nodes
      · exact hleft
      · exact NulFree.append hleft (hnodes name List.mem_cons_self)
      · exact hleft
    | nop => exact ih hrest hleft hnodes
    | prop name data =>
      exact List.forall_mem_cons.mpr
        ⟨⟨hleft, NulFree.append (nodePath_nulFree hnodes) hcall.1⟩, ih hrest hleft hnodes⟩

theorem short_some (h : short none pl calls = true) (q : CStr) : short (some q) pl calls = true := by
  induction calls generalizing pl with
  | nil => rfl
  | cons call calls ih =>
    cases call with
    | beginNode name =>
      obtain ⟨hlt, hrest⟩ := (Bool.and_eq_true_iff ..).mp h
      exact (Bool.and_eq_true_iff ..).mpr ⟨hlt, ih hrest⟩
    | endNode => exact ih h
    | nop => exact ih h
    | prop name data =>
      obtain ⟨hlt, hrest⟩ := (Bool.and_eq_true_iff ..).mp h
      exact (Bool.and_eq_true_iff ..).mpr
        ⟨hlt, (Bool.or_eq_true_iff ..).mpr (.inr (ih hrest))⟩

theorem written_short (h : short none pl calls = true) :
    ∀ w ∈ written pl p calls, (w.left ++ w.path).length < 256 := by
  induction calls generalizing pl p with
  | nil => exact fun w hw ↦ absurd hw List.not_mem_nil
  | cons call calls ih =>
    cases call with
    | beginNode name => exact ih ((Bool.and_eq_true_iff ..).mp h).2
    | endNode => exact ih h
    | nop => exact ih h
    | prop name data =>
      obtain ⟨hlt, hrest⟩ := (Bool.and_eq_true_iff ..).mp h
      refine List.forall_mem_cons.mpr ⟨?_, ih hrest⟩
      dsimp only
      rw [← List.append_assoc]
      exact of_decide_eq_true hlt

/-- Before a path that is too long only what stands in front of it is found. -/
theorem mem_of_short (h : short (some q) pl calls = true) (hnone : short none pl calls = false) :
    q ∈ (written pl p calls).map fun w ↦ w.left ++ w.path := by
  induction calls generalizing pl p with
  | nil => exact absurd hnone (by rw [short]; decide)
  | cons call calls ih =>
    cases call with
    | beginNode name =>
      obtain ⟨hlt, hrest⟩ := (Bool.and_eq_true_iff ..).mp h
      rw [short, hlt, Bool.true_and] at hnone
      exact ih hrest hnone
    | endNode => exact ih h hnone
    | nop => exact ih h hnone
    | prop name data =>
      obtain ⟨hlt, hrest⟩ := (Bool.and_eq_true_iff ..).mp h
      rw [short, hlt, Bool.true_and] at hnone
      rcases (Bool.or_eq_true_iff ..).mp hrest with heq | hrest
      · have hq := Option.some.inj (eq_of_beq heq)
        rw [← hq, Place.path, List.append_assoc]
        exact List.mem_cons_self
      · exact List.mem_cons_of_mem _ (ih hrest hnone)

/-- No list of strings that fits into the address space has every string. -/
theorem exists_unwritten (l : List CStr) (h : l.length < 2 ^ 32) :
    ∃ q, NulFree q ∧ q.length < 256 ∧ q ∉ l := by
  by_contra hall
  push Not at hall
  let name (b : Fin 32 → Bool) : CStr := List.ofFn fun i ↦ if b i then 1 else 2
  have hinj : Function.Injective name := by
    intro b b' heq
    have hfun := List.ofFn_injective heq
    funext i
    have hi := congrFun hfun i
    cases hb : b i <;> cases hb' : b' i <;> rw [hb, hb'] at hi <;> revert hi <;> decide
  have hmem : ∀ b, name b ∈ l.toFinset := by
    intro b
    rw [List.mem_toFinset]
    refine hall _ (fun c hc ↦ ?_) (by rw [List.length_ofFn]; decide)
    obtain ⟨i, rfl⟩ := List.mem_ofFn.mp hc
    split_ifs <;> decide
  have hcard := Finset.card_le_card_of_injOn name (s := Finset.univ) (fun b _ ↦ hmem b) hinj.injOn
  rw [Finset.card_univ, Fintype.card_fun, Fintype.card_bool, Fintype.card_fin] at hcard
  exact absurd (hcard.trans (List.toFinset_card_le l)) (not_le.mpr h)

end Paths

section Shadow

variable {ws : List Written}

theorem find?_read {q : CStr} (hleft : ws.Pairwise fun v w ↦ v.left ≠ [] → w.left ≠ [])
    (hfound : ∃ u ∈ ws, u.left = [] ∧ u.path = q) :
    ws.find? (·.path == q) = ws.find? fun w ↦ w.left ++ w.path == q := by
  induction ws with
  | nil =>
    obtain ⟨u, hu, -⟩ := hfound
    exact absurd hu List.not_mem_nil
  | cons w ws ih =>
    obtain ⟨hhead, hrest⟩ := List.pairwise_cons.mp hleft
    obtain ⟨u, hu, hnil, hpath⟩ := hfound
    have hw : w.left = [] := by
      by_contra hne
      rcases List.mem_cons.mp hu with rfl | hu
      · exact hne hnil
      · exact hhead u hu hne hnil
    rw [List.find?_cons, List.find?_cons, hw, List.nil_append]
    cases hq : w.path == q with
    | true => rfl
    | false =>
      refine ih hrest ⟨u, (List.mem_cons.mp hu).resolve_left ?_, hnil, hpath⟩
      rintro rfl
      exact absurd (beq_iff_eq.mpr hpath) (by rw [hq]; decide)

/-- A property that both searches find is read right. -/
theorem exists_read {q : CStr} (haddr : ws.Pairwise fun v w ↦ v.addr < w.addr)
    (heq : (ws.find? fun w ↦ w.left ++ w.path == q).map (fun w ↦ (w.addr, w.data.length)) =
      (ws.find? (·.path == q)).map fun w ↦ (w.addr, w.data.length))
    (hsome : (∃ v ∈ ws, v.path = q) ∨ ∃ v ∈ ws, v.left ++ v.path = q) :
    ∃ v ∈ ws, v.left = [] ∧ v.path = q := by
  cases hread : ws.find? fun w ↦ w.left ++ w.path == q with
  | none =>
    cases hfirst : ws.find? (·.path == q) with
    | none =>
      rcases hsome with ⟨v, hv, hvq⟩ | ⟨v, hv, hvq⟩
      · exact absurd (beq_iff_eq.mpr hvq) (List.find?_eq_none.mp hfirst v hv)
      · exact absurd (beq_iff_eq.mpr hvq) (List.find?_eq_none.mp hread v hv)
    | some v =>
      rw [hread, hfirst] at heq
      cases heq
  | some v =>
    cases hfirst : ws.find? (·.path == q) with
    | none =>
      rw [hread, hfirst] at heq
      cases heq
    | some v' =>
      rw [hread, hfirst] at heq
      have hv := List.mem_of_find?_eq_some hread
      have hv' := List.mem_of_find?_eq_some hfirst
      have hvaddr : v.addr = v'.addr := (Prod.mk.inj (Option.some.inj heq)).1
      have hnodup : (ws.map Written.addr).Nodup :=
        List.pairwise_map.mpr (haddr.imp fun h ↦ Nat.ne_of_lt h)
      have hsame : v = v' := List.inj_on_of_nodup_map hnodup hv hv' hvaddr
      have hpath := List.find?_some hread
      have hpath' := List.find?_some hfirst
      rw [beq_iff_eq] at hpath hpath'
      rw [← hsame] at hpath'
      refine ⟨v, hv, ?_, hpath'⟩
      rw [← hpath'] at hpath
      exact List.append_left_eq_self.mp hpath

/-- The first property with a path and the first that is read with it are the same for every path
exactly when what is read wrong is shadowed. -/
theorem find?_iff (haddr : ws.Pairwise fun v w ↦ v.addr < w.addr)
    (hleft : ws.Pairwise fun v w ↦ v.left ≠ [] → w.left ≠ [])
    (hnul : ∀ w ∈ ws, NulFree w.left ∧ NulFree w.path)
    (hshort : ∀ w ∈ ws, (w.left ++ w.path).length < 256) :
    (∀ q, NulFree q → q.length < 256 →
        (ws.find? fun w ↦ w.left ++ w.path == q).map (fun w ↦ (w.addr, w.data.length)) =
          (ws.find? (·.path == q)).map fun w ↦ (w.addr, w.data.length)) ↔ Shadowed ws := by
  constructor
  · intro h w hw hne
    have hlen := hshort w hw
    obtain ⟨hnulLeft, hnulPath⟩ := hnul w hw
    refine ⟨exists_read haddr (h w.path hnulPath ?_) (.inl ⟨w, hw, rfl⟩),
      exists_read haddr (h _ (NulFree.append hnulLeft hnulPath) hlen) (.inr ⟨w, hw, rfl⟩)⟩
    rw [List.length_append] at hlen
    omega
  · intro h q hq hlt
    by_cases hfound : ∃ u ∈ ws, u.left = [] ∧ u.path = q
    · rw [find?_read hleft hfound]
    · have hnone : ws.find? (·.path == q) = none := by
        rw [List.find?_eq_none]
        intro w hw hwq
        have hpath := beq_iff_eq.mp hwq
        by_cases hwleft : w.left = []
        · exact hfound ⟨w, hw, hwleft, hpath⟩
        · obtain ⟨⟨v, hv, hvleft, hvpath⟩, -⟩ := h w hw hwleft
          exact hfound ⟨v, hv, hvleft, hvpath.trans hpath⟩
      have hnone' : (ws.find? fun w ↦ w.left ++ w.path == q) = none := by
        rw [List.find?_eq_none]
        intro w hw hwq
        have hpath := beq_iff_eq.mp hwq
        by_cases hwleft : w.left = []
        · rw [hwleft, List.nil_append] at hpath
          exact hfound ⟨w, hw, hwleft, hpath⟩
        · obtain ⟨-, v, hv, hvleft, hvpath⟩ := h w hw hwleft
          exact hfound ⟨v, hv, hvleft, hvpath.trans hpath⟩
      rw [hnone, hnone']

end Shadow

end UBoot.Common.FtGetProp
