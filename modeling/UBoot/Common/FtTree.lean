import Mathlib.Data.List.Find
import UBoot.Common.FtGetProp

namespace UBoot.Common.FtTree

open Lib.CString Lib.Memory Lib.StringTable FtBuild FtEncoding FtBlob FtMerge FtGetProp

/-- The full paths of the properties. -/
def paths : List CStr → List FtCall → List CStr
  | _, [] => []
  | nodes, .beginNode name :: calls => paths (name :: nodes) calls
  | nodes, .endNode :: calls => paths nodes.tail calls
  | nodes, .nop :: calls => paths nodes calls
  | nodes, .prop name _ :: calls => (nodePath nodes ++ name) :: paths nodes calls

/-- One root with the calls for its contents. -/
structure Rooted (calls : List FtCall) (root : CStr) (body : List FtCall) : Prop where
  eq : calls = .beginNode root :: (body ++ [.endNode])
  nested : WellNested body

/-- The tree with the contents of another root at the end of its own. -/
def mergedCalls (base : CStr) (inner body : List FtCall) : List FtCall :=
  .beginNode base :: (inner ++ (repeated body ++ [.endNode]))

/-- The paths of the contents of a root under another root. -/
def mergedPaths (base : CStr) (body : List FtCall) : List CStr :=
  (paths [] body).map (nodePath [base] ++ ·)

/-- The properties with the place of their data. -/
def properties (m : Mem) (t : Tree) (calls : List FtCall) : List Written :=
  written .top (t.opened m).pBegin calls

/-- After `ft_merge_blob` without overflow each property of `t` is found under the root of
`other`. -/
def Merges (m : Mem) (t other : Tree) : Prop :=
  ∀ name body base inner cxt, Rooted t.calls name body → Rooted other.calls base inner →
    other.merged m t.blob = some (0, cxt) → ∀ path ∈ mergedPaths base body, path.length < 256 →
      (∃ w ∈ properties m other (mergedCalls base inner body), w.path = path) ∧
        FindsFirst cxt.mem other.blob (properties m other (mergedCalls base inner body)) path

def ShortWhenMerged (m : Mem) (t other : Tree) : Prop :=
  ∀ name body base inner cxt, Rooted t.calls name body → Rooted other.calls base inner →
    other.merged m t.blob = some (0, cxt) → ∀ path ∈ mergedPaths base body, path.length < 256 →
      short (some path) .top (mergedCalls base inner body) = true

section Nesting

variable {nodes nodes' outer : List CStr} {calls more body : List FtCall}

theorem nesting_append (nodes : List CStr) (calls more : List FtCall) :
    nesting nodes (calls ++ more) = (nesting nodes calls).bind (nesting · more) := by
  induction calls generalizing nodes with
  | nil => rfl
  | cons call calls ih =>
    cases call with
    | beginNode name => exact ih _
    | endNode =>
      cases nodes with
      | nil => rfl
      | cons name nodes => exact ih nodes
    | nop => exact ih nodes
    | prop name data => exact ih nodes

theorem nesting_outer (outer : List CStr) (h : nesting nodes calls = some nodes') :
    nesting (nodes ++ outer) calls = some (nodes' ++ outer) := by
  induction calls generalizing nodes with
  | nil =>
    cases h
    rfl
  | cons call calls ih =>
    cases call with
    | beginNode name =>
      have h' : nesting (name :: nodes) calls = some nodes' := h
      exact ih h'
    | endNode =>
      cases nodes with
      | nil => cases h
      | cons name nodes => exact ih h
    | nop => exact ih h
    | prop name data => exact ih h

theorem nesting_repeated (nodes : List CStr) (body : List FtCall) :
    nesting nodes (repeated body) = nesting nodes body := by
  induction body generalizing nodes with
  | nil => rfl
  | cons call body ih =>
    cases call with
    | beginNode name => exact ih _
    | endNode =>
      cases nodes with
      | nil => rfl
      | cons name nodes => exact ih nodes
    | nop => exact ih nodes
    | prop name data => exact ih nodes

theorem nodePath_append (nodes outer : List CStr) :
    nodePath (nodes ++ outer) = nodePath outer ++ nodePath nodes := by
  induction nodes with
  | nil => exact (List.append_nil _).symm
  | cons name nodes ih => rw [List.cons_append, nodePath, nodePath, ih, List.append_assoc]

theorem paths_repeated (nodes : List CStr) (body : List FtCall) :
    paths nodes (repeated body) = paths nodes body := by
  induction body generalizing nodes with
  | nil => rfl
  | cons call body ih =>
    cases call with
    | beginNode name => exact ih _
    | endNode => exact ih _
    | nop => exact ih nodes
    | prop name data => exact congrArg (_ :: ·) (ih nodes)

theorem paths_append (h : nesting nodes calls = some nodes') (more : List FtCall) :
    paths nodes (calls ++ more) = paths nodes calls ++ paths nodes' more := by
  induction calls generalizing nodes with
  | nil =>
    cases h
    rfl
  | cons call calls ih =>
    cases call with
    | beginNode name => exact ih h
    | endNode =>
      cases nodes with
      | nil => cases h
      | cons name nodes => exact ih h
    | nop => exact ih h
    | prop name data => exact congrArg (_ :: ·) (ih h)

theorem paths_outer (outer : List CStr) (h : nesting nodes calls = some nodes') :
    paths (nodes ++ outer) calls = (paths nodes calls).map (nodePath outer ++ ·) := by
  induction calls generalizing nodes with
  | nil => rfl
  | cons call calls ih =>
    cases call with
    | beginNode name =>
      have h' : nesting (name :: nodes) calls = some nodes' := h
      exact ih h'
    | endNode =>
      cases nodes with
      | nil => cases h
      | cons name nodes => exact ih h
    | nop => exact ih h
    | prop name data =>
      rw [paths, paths, List.map_cons, nodePath_append, List.append_assoc, ih h]

theorem written_path (pl : Place) (p : ℕ) (calls : List FtCall) :
    (written pl p calls).map Written.path = paths pl.nodes calls := by
  induction calls generalizing pl p with
  | nil => rfl
  | cons call calls ih =>
    cases call with
    | beginNode name => exact ih _ _
    | endNode => exact (ih _ _).trans (by rw [leave_nodes, paths])
    | nop => exact ih _ _
    | prop name data => exact congrArg (_ :: ·) (ih _ _)

/-- Inside a root nothing is left in front of the paths. -/
theorem written_rooted (left base : CStr) (p : ℕ) (h : nesting nodes calls = some []) :
    ∀ w ∈ written ⟨left, nodes ++ [base]⟩ p (calls ++ [.endNode]), w.left = left := by
  induction calls generalizing nodes p with
  | nil => exact fun w hw ↦ absurd hw List.not_mem_nil
  | cons call calls ih =>
    cases call with
    | beginNode name =>
      have h' : nesting (name :: nodes) calls = some [] := h
      exact ih _ h'
    | endNode =>
      obtain _ | ⟨name, _ | ⟨outer, nodes⟩⟩ := nodes
      · cases h
      · have h' : nesting [] calls = some [] := h
        exact ih _ h'
      · have h' : nesting (outer :: nodes) calls = some [] := h
        exact ih _ h'
    | nop => exact ih _ h
    | prop name data => exact List.forall_mem_cons.mpr ⟨rfl, ih _ h⟩

theorem contents_nested {inner : List FtCall} (hinner : WellNested inner) (hbody : WellNested body) :
    nesting [] (inner ++ repeated body) = some [] := by
  rw [nesting_append, hinner, Option.bind_some, nesting_repeated, hbody]

theorem mergedCalls_nested (base : CStr) {inner : List FtCall} (hinner : WellNested inner)
    (hbody : WellNested body) : WellNested (mergedCalls base inner body) := by
  have hcontents := nesting_outer [base] (contents_nested hinner hbody)
  rw [WellNested, mergedCalls, nesting, ← List.append_assoc, nesting_append]
  rw [List.nil_append] at hcontents
  rw [hcontents]
  rfl

theorem mergedPaths_written (base : CStr) {inner : List FtCall} (hinner : WellNested inner)
    (hbody : WellNested body) (p : ℕ) :
    ∀ path ∈ mergedPaths base body,
      ∃ w ∈ written .top p (mergedCalls base inner body), w.path = path := by
  intro path hpath
  have hpaths : path ∈ paths [] (mergedCalls base inner body) := by
    have hinner' : nesting [base] inner = some [base] := nesting_outer [base] hinner
    have hbody' : nesting [] (repeated body) = some [] := (nesting_repeated [] body).trans hbody
    have hbody'' : nesting [base] (repeated body) = some [base] := nesting_outer [base] hbody'
    have houter : paths [base] (repeated body) = mergedPaths base body := by
      rw [mergedPaths, ← paths_repeated [] body]
      exact paths_outer [base] hbody'
    rw [mergedCalls, paths, paths_append hinner', paths_append hbody'', houter]
    exact List.mem_append_right _ (List.mem_append_left _ hpath)
  have hwritten : (written .top p (mergedCalls base inner body)).map Written.path =
      paths [] (mergedCalls base inner body) := written_path .top p _
  rw [← hwritten] at hpaths
  exact List.mem_map.mp hpaths

end Nesting

section Trees

variable {m : Mem} {bph pStruct stop : ℕ} {es : List (FtCall × ℕ)}

theorem reads_iff (h : Blob m bph pStruct stop es) (hnest : WellNested (es.map Prod.fst)) :
    Reads m bph (written .top pStruct (es.map Prod.fst)) ↔
      short none .top (es.map Prod.fst) = true ∧
        Shadowed (written .top pStruct (es.map Prod.fst)) := by
  have hnamed : ∀ c ∈ es.map Prod.fst, Named c := by
    intro c hc
    obtain ⟨e, he, rfl⟩ := List.mem_map.mp hc
    exact h.named e he
  have hnul : ∀ w ∈ written .top pStruct (es.map Prod.fst), NulFree w.left ∧ NulFree w.path :=
    written_nulFree hnamed (fun c hc ↦ absurd hc List.not_mem_nil) (fun name hname ↦ absurd hname List.not_mem_nil)
  have haddr := (written_addr .top pStruct (es.map Prod.fst)).2
  have hleft := (written_left .top pStruct (es.map Prod.fst)).2
  have hdata (q : CStr) : ∀ w ∈ (written .top pStruct (es.map Prod.fst)).find? (·.path == q),
      bytes m w.addr w.data.length = w.data :=
    fun w hw ↦ written_data h.readable .top w (List.mem_of_find?_eq_some hw)
  constructor
  · intro hreads
    have hshort : short none .top (es.map Prod.fst) = true := by
      by_contra hlong
      rw [Bool.not_eq_true] at hlong
      have hlen := written_length .top pStruct (es.map Prod.fst)
      have hcalls := h.struct.length_lt
      rw [List.length_map] at hlen
      obtain ⟨q, hq, hlt, hnot⟩ := exists_unwritten
        ((written .top pStruct (es.map Prod.fst)).map fun w ↦ w.left ++ w.path) (by
          rw [List.length_map]
          omega)
      have hget := (hreads q hq hlt).1
      rw [ftGetProp_eq h hnest] at hget
      split_ifs at hget with hshort
      exact hnot (mem_of_short hshort hlong)
    refine ⟨hshort, (find?_iff haddr hleft hnul (written_short hshort)).mp fun q hq hlt ↦ ?_⟩
    have hget := (hreads q hq hlt).1
    rw [ftGetProp_eq h hnest, if_pos (short_some hshort q)] at hget
    exact Option.some.inj hget
  · rintro ⟨hshort, hshadowed⟩ q hq hlt
    refine ⟨?_, hdata q⟩
    rw [ftGetProp_eq h hnest, if_pos (short_some hshort q),
      (find?_iff haddr hleft hnul (written_short hshort)).mpr hshadowed q hq hlt]

theorem findsFirst_rooted {base q : CStr} {contents : List FtCall} (h : Blob m bph pStruct stop es)
    (hes : es.map Prod.fst = .beginNode base :: (contents ++ [.endNode]))
    (hnest : WellNested (es.map Prod.fst)) (hcontents : nesting [] contents = some []) :
    FindsFirst m bph (written .top pStruct (es.map Prod.fst)) q ↔
      short (some q) .top (es.map Prod.fst) = true := by
  have hleft : ∀ w ∈ written .top pStruct (es.map Prod.fst), w.left = [] := by
    rw [hes]
    exact written_rooted [] base _ hcontents
  have hfind : ((written .top pStruct (es.map Prod.fst)).find? fun w ↦ w.left ++ w.path == q) =
      (written .top pStruct (es.map Prod.fst)).find? (·.path == q) :=
    List.find?_congr fun w hw ↦ by rw [hleft w hw, List.nil_append]
  rw [FindsFirst, ftGetProp_eq h hnest, hfind]
  constructor
  · rintro ⟨hget, -⟩
    split_ifs at hget with hshort
    exact hshort
  · intro hshort
    rw [if_pos hshort]
    exact ⟨rfl, fun w hw ↦ written_data h.readable .top w (List.mem_of_find?_eq_some hw)⟩

end Trees

section Claim

variable {m : Mem} {t other : Tree} {cxt : FtCxt}

/-- Neither buffer reaches into the other. -/
def Apart (t other : Tree) : Prop :=
  other.blob + other.maxSize ≤ t.blob ∨ t.blob + t.maxSize ≤ other.blob

theorem merged_blob {pStruct stop : ℕ} {es : List (FtCall × ℕ)} {name base : CStr}
    {body inner : List FtCall} (ho : Tree.Buffer other) (hnamed : ∀ c ∈ other.calls, Named c)
    (hapart : Apart t other) (h : Blob m t.blob pStruct stop es)
    (hstop : stop ≤ t.blob + t.maxSize) (hes : es.map Prod.fst = t.calls)
    (hroot : Rooted t.calls name body) (hroot' : Rooted other.calls base inner)
    (hmerged : other.merged m t.blob = some (0, cxt)) :
    ∃ es' stop', es'.map Prod.fst = mergedCalls base inner body ∧
      Blob cxt.mem other.blob (other.opened m).pBegin stop' es' := by
  have hne : other.calls ≠ [] := by
    rw [hroot'.eq]
    exact List.cons_ne_nil _ _
  obtain ⟨hbph, hpstrBegin, hle, -, hmem⟩ := opened_header m other
  obtain ⟨cxt₁, hbuilt, hrep⟩ := built_rep (m := m) ho hnamed hne
  rw [Tree.merged, hbuilt, Option.bind_eq_bind, Option.bind_some] at hmerged
  obtain ⟨cxt₂, hmerge, hend⟩ := Option.bind_eq_some_iff.mp hmerged
  have hover : cxt₂.overflow = false := by
    by_contra hover
    have hfull : Full cxt₂ := .inl (Bool.eq_true_of_not_eq_false hover)
    exact hfull.endTree hend rfl
  have hbegin : (other.opened m).pBegin ≤ (other.opened m).pstrBegin := by
    rcases hrep with hfull | ⟨es₁, table, -, hbuilt₁, hframe⟩
    · exact absurd (ftMergeBlob_overflow hfull hmerge) (by rw [hover]; decide)
    · have hp := hbuilt₁.p_eq
      have hple := hbuilt₁.p_le
      have hpstr := hbuilt₁.pstr_eq
      rw [← hframe.pBegin, ← hframe.pstrBegin]
      omega
  have hcalls : other.calls = (.beginNode base :: inner) ++ [.endNode] := hroot'.eq
  rw [hcalls] at hrep
  rw [hroot.eq] at hes
  have hrep' := ftMergeBlob_spec h
    (fun k hk hk' ↦ hmem k (by rcases hapart with hapart | hapart <;> omega))
    (fun k hk hk' ↦ by rcases hapart with hapart | hapart <;> omega) hes hroot.nested hrep hmerge
    hover
  obtain ⟨es', stop', hes', -, hblob⟩ := endTree_blob ho hrep' hend
  exact ⟨es', stop', hes', hblob⟩

/-- A finished tree is found as it was built, by itself and merged into another one, exactly when
the paths that are read are short and what stands behind a named top-level node is shadowed. -/
theorem ft_tree_iff {m₀ : Mem} (ht : Tree.Buffer t) (ho : Tree.Buffer other)
    (hnamed : ∀ c ∈ t.calls, Named c) (hnamed' : ∀ c ∈ other.calls, Named c)
    (hnest : WellNested t.calls) (hapart : Apart t other)
    (hend : t.finished m₀ = some (0, cxt)) :
    Reads cxt.mem t.blob (properties m₀ t t.calls) ∧ Merges cxt.mem t other ↔
      (short none .top t.calls = true ∧ Shadowed (properties m₀ t t.calls)) ∧
        ShortWhenMerged cxt.mem t other := by
  obtain ⟨es, stop, hes, hstop, hblob⟩ := finished_blob ht hnamed hend
  have hnest' : WellNested (es.map Prod.fst) := by
    rw [hes]
    exact hnest
  have hreads := reads_iff hblob hnest'
  rw [hes] at hreads
  refine and_congr hreads (forall_congr' fun name ↦ forall_congr' fun body ↦ forall_congr' fun base ↦
    forall_congr' fun inner ↦ forall_congr' fun cxt' ↦ forall_congr' fun hroot ↦
      forall_congr' fun hroot' ↦ forall_congr' fun hmerged ↦ forall_congr' fun path ↦
        forall_congr' fun hpath ↦ forall_congr' fun hlt ↦ ?_)
  obtain ⟨es', stop', hes', hblob'⟩ :=
    merged_blob ho hnamed' hapart hblob hstop hes hroot hroot' hmerged
  have hcalls : es'.map Prod.fst =
      .beginNode base :: ((inner ++ repeated body) ++ [.endNode]) := by
    rw [hes', mergedCalls, List.append_assoc]
  have hmergedNest : WellNested (es'.map Prod.fst) := by
    rw [hes']
    exact mergedCalls_nested base hroot'.nested hroot.nested
  have hfinds := findsFirst_rooted (q := path) hblob' hcalls hmergedNest
    (contents_nested hroot'.nested hroot.nested)
  rw [hes'] at hfinds
  have hwritten := mergedPaths_written base hroot'.nested hroot.nested (other.opened cxt.mem).pBegin
    path hpath
  exact (and_iff_right hwritten).trans hfinds

/-- `/a/p`, to be merged. -/
def oneNode : Tree :=
  ⟨0x1000, 256, [(0x100, 0x40)],
    [.beginNode [], .beginNode (ascii "a"), .prop (ascii "p") [1, 2, 3], .endNode, .endNode]⟩

def emptyRoot : Tree := ⟨0x2000, 256, [], [.beginNode [], .endNode]⟩

theorem ft_tree_iff_oneNode :
    ∃ cxt, oneNode.finished (fun _ ↦ 0) = some (0, cxt) ∧
      (Reads cxt.mem 0x1000 (properties (fun _ ↦ 0) oneNode oneNode.calls) ∧
          Merges cxt.mem oneNode emptyRoot ↔
        (short none .top oneNode.calls = true ∧
            Shadowed (properties (fun _ ↦ 0) oneNode oneNode.calls)) ∧
          ShortWhenMerged cxt.mem oneNode emptyRoot) := by
  have hend : (oneNode.finished fun _ ↦ 0).map Prod.fst = some 0 := by decide +kernel
  obtain ⟨⟨rc, cxt⟩, hend, rfl⟩ := Option.map_eq_some_iff.mp hend
  have hcalls (calls : List FtCall) (h : calls = oneNode.calls ∨ calls = emptyRoot.calls) :
      ∀ c ∈ calls, Named c := by
    rcases h with rfl | rfl
    · simp [oneNode, Named, NulFree, ascii, slash]
    · simp [emptyRoot, Named, NulFree]
  exact ⟨cxt, hend, ft_tree_iff ⟨by decide, by decide, by decide⟩ ⟨by decide, by decide, by decide⟩
    (hcalls _ (.inl rfl)) (hcalls _ (.inr rfl)) rfl (.inr (by decide)) hend⟩

def twoTopNodes : Tree :=
  ⟨0x1000, 256, [], [.beginNode (ascii "x"), .endNode, .beginNode (ascii "y"),
    .prop (ascii "p") [1, 2, 3, 4], .endNode]⟩

/-- The name of the first node is left in front of the path of the second. -/
theorem ft_tree_misread :
    ¬ ∀ cxt, twoTopNodes.finished (fun _ ↦ 0) = some (0, cxt) →
      Reads cxt.mem 0x1000 (properties (fun _ ↦ 0) twoTopNodes twoTopNodes.calls) := by
  intro h
  have hrun : (twoTopNodes.finished fun _ ↦ 0).map
      (fun r ↦ (r.1, ftGetProp r.2.mem 0x1000 (ascii "y/p"))) = some (0, some none) := by
    decide +kernel
  obtain ⟨⟨rc, cxt⟩, hend, heq⟩ := Option.map_eq_some_iff.mp hrun
  obtain ⟨rfl, hget⟩ := Prod.mk.inj heq
  have hfirst := (h cxt hend (ascii "y/p") (by decide) (by decide)).1
  rw [hget] at hfirst
  have hfound : ((properties (fun _ ↦ 0) twoTopNodes twoTopNodes.calls).find?
      (·.path == ascii "y/p")).isSome = true := by decide +kernel
  rw [← Option.isSome_map (f := fun w ↦ (w.addr, w.data.length)), ← Option.some.inj hfirst] at hfound
  cases hfound

end Claim

end UBoot.Common.FtTree
