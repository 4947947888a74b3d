import UBoot.Common.FtBlob
import UBoot.Common.FtWithin

namespace UBoot.Common.FtMerge

open Lib.CString Lib.Memory Lib.StringTable FtBuild FtEncoding FtWithin FtBlob

/-- The open nodes behind the calls, innermost first; `none` when a node ends that was not begun. -/
def nesting : List CStr → List FtCall → Option (List CStr)
  | nodes, [] => some nodes
  | nodes, .beginNode name :: calls => nesting (name :: nodes) calls
  | [], .endNode :: _ => none
  | _ :: nodes, .endNode :: calls => nesting nodes calls
  | nodes, .nop :: calls => nesting nodes calls
  | nodes, .prop _ _ :: calls => nesting nodes calls

def WellNested (calls : List FtCall) : Prop := nesting [] calls = some []

def isNop : FtCall → Bool
  | .nop => true
  | _ => false

/-- What the merge repeats of the contents of a root. -/
def repeated (body : List FtCall) : List FtCall := body.filter (!isNop ·)

section Repeat

variable {start cxt cxt' : FtCxt} {calls : List FtCall}

theorem mergeLoop_overflow {pStrings fuel p : ℕ} {depth : ℤ} (h : cxt.overflow = true)
    (hloop : mergeLoop pStrings fuel cxt depth p = some cxt') : cxt'.overflow = true := by
  induction fuel generalizing depth p with
  | zero => cases hloop
  | succ fuel ih =>
    have hbegin (s : CStr) : ftBeginNode cxt s = cxt :=
      Option.some.inj (call_overflow h (.beginNode s))
    have hend : ftEndNode cxt = cxt := Option.some.inj (call_overflow h .endNode)
    have hprop (s : CStr) (data : List UInt8) : ftProp cxt s data = some cxt :=
      call_overflow h (.prop s data)
    rw [mergeLoop] at hloop
    simp only [hbegin, hend, hprop, ite_self] at hloop
    split_ifs at hloop
    · cases hloop
      exact h
    · obtain ⟨s, -, hloop⟩ := Option.bind_eq_some_iff.mp hloop
      exact ih hloop
    · cases hloop
      exact h
    · exact ih hloop
    · exact ih hloop
    · cases hloop
      exact h
    · obtain ⟨s, -, hloop⟩ := Option.bind_eq_some_iff.mp hloop
      exact ih hloop

/-- A part of a blob that can be read whatever is built from `start` on. -/
def Kept (start : FtCxt) (p pStrings : ℕ) (es : List (FtCall × ℕ)) : Prop :=
  ∀ cxt, Frame start cxt → Readable cxt.mem p pStrings es

theorem repeated_cons {call : FtCall} (h : isNop call = false) (body : List FtCall) :
    repeated (call :: body) = call :: repeated body :=
  List.filter_cons_of_pos (by rw [h]; rfl)

/-- From `p` on the structure and the names of its properties can be read, whatever they are. -/
structure Legible (m : Mem) (p pStrings : ℕ) (es : List (FtCall × ℕ)) : Prop where
  struct : StructAt m p es
  terminated : ∀ e ∈ es, Terminated e.1
  off_lt : ∀ name data off, (.prop name data, off) ∈ es → off < 4294967296
  strings : ∀ name data off, (.prop name data, off) ∈ es →
    stringAt m (pStrings + off) = some name

theorem legible_of_readable {m : Mem} {p pStrings : ℕ} {es : List (FtCall × ℕ)}
    (h : Readable m p pStrings es) : Legible m p pStrings es where
  struct := h.struct
  terminated e he := (h.named e he).terminated
  off_lt := h.off_lt
  strings := h.strings

theorem Legible.tail {m : Mem} {p pStrings off : ℕ} {call : FtCall} {es : List (FtCall × ℕ)}
    (h : Legible m p pStrings ((call, off) :: es)) : Legible m (p + size call) pStrings es where
  struct := h.struct.tail
  terminated e he := h.terminated e (List.mem_cons_of_mem _ he)
  off_lt name data off he := h.off_lt name data off (List.mem_cons_of_mem _ he)
  strings name data off he := h.strings name data off (List.mem_cons_of_mem _ he)

variable {pStrings fuel p : ℕ} {es : List (FtCall × ℕ)} {body rest : List FtCall}

/-- Inside the root every call but `ft_nop` is made again. -/
theorem mergeLoop_eq {nodes : List CStr}
    (hread : ∀ cxt, Within start cxt → Legible cxt.mem p pStrings es)
    (hmap : es.map Prod.fst = body ++ .endNode :: rest) (hnest : nesting nodes body = some [])
    (h : Within start cxt) (hfuel : es.length < fuel) :
    mergeLoop pStrings fuel cxt (nodes.length + 1) p =
      (repeated body ++ [FtCall.endNode]).foldlM FtCxt.call cxt := by
  induction body generalizing cxt fuel p es nodes with
  | nil =>
    obtain ⟨fuel, rfl⟩ := Nat.exists_eq_add_one.mpr (Nat.zero_lt_of_lt hfuel)
    obtain ⟨⟨call, off⟩, es', rfl, hcall, -⟩ := List.map_eq_cons_iff.mp hmap
    cases hcall
    cases hnest
    have hstruct := (hread cxt h).struct
    rw [mergeLoop]
    dsimp only
    rw [hstruct.endNode, if_neg (by decide), if_neg (by decide), if_pos rfl, if_pos (by simp)]
    rfl
  | cons call body ih =>
    obtain ⟨fuel, rfl⟩ := Nat.exists_eq_add_one.mpr (Nat.zero_lt_of_lt hfuel)
    obtain ⟨⟨call', off⟩, es', rfl, hcall', hmap'⟩ := List.map_eq_cons_iff.mp hmap
    subst hcall'
    have hlegible := hread cxt h
    have hstruct := hlegible.struct
    have hname : Terminated call' := hlegible.terminated _ List.mem_cons_self
    have hread' (cxt : FtCxt) (h : Within start cxt) : Legible cxt.mem (p + size call') pStrings es' :=
      (hread cxt h).tail
    have hfuel' : es'.length < fuel := Nat.lt_of_succ_lt_succ hfuel
    have hnext (nodes' : List CStr) (hnop : isNop call' = false)
        (hnest' : nesting nodes' body = some []) :
        ((cxt.call call').bind fun cxt₁ ↦
            mergeLoop pStrings fuel cxt₁ (nodes'.length + 1) (p + size call')) =
          (repeated (call' :: body) ++ [FtCall.endNode]).foldlM FtCxt.call cxt := by
      rw [repeated_cons hnop, List.cons_append, List.foldlM_cons]
      cases hcall : cxt.call call' with
      | none => rfl
      | some cxt₁ => exact ih hread' hmap' hnest' (h.call hcall) hfuel'
    rw [mergeLoop]
    dsimp only
    cases call' with
    | beginNode name =>
      obtain ⟨htag, hstring, -, halign⟩ := hstruct.beginNode hname
      rw [htag, if_neg (by decide), if_pos rfl, hstring, Option.bind_eq_bind, Option.bind_some,
        if_pos (by omega), halign]
      exact hnext (name :: nodes) rfl hnest
    | endNode =>
      cases nodes with
      | nil => cases hnest
      | cons name nodes =>
        have hdepth : ((name :: nodes).length : ℤ) + 1 - 1 = nodes.length + 1 := by simp
        rw [hstruct.endNode, if_neg (by decide), if_neg (by decide), if_pos rfl, hdepth,
          if_neg (by omega)]
        exact hnext nodes rfl hnest
    | nop =>
      rw [hstruct.nop, if_neg (by decide), if_neg (by decide), if_neg (by decide), if_pos rfl]
      have hnest' : nesting nodes body = some [] := hnest
      have hrest := ih hread' hmap' hnest' h hfuel'
      exact hrest
    | prop name data =>
      obtain ⟨htag, hsz, hoff, hdata, halign⟩ := hstruct.prop
      have hlt := hlegible.off_lt name data off List.mem_cons_self
      rw [Nat.mod_eq_of_lt hlt] at hoff
      rw [htag, if_neg (by decide), if_neg (by decide), if_neg (by decide), if_neg (by decide),
        if_neg (not_not.mpr rfl), hoff, hlegible.strings name data off List.mem_cons_self,
        Option.bind_eq_bind, Option.bind_some, hsz, hdata, halign]
      exact hnext nodes rfl hnest

/-- The root itself is left out, also behind `OF_DT_NOP`s. -/
theorem mergeLoop_root {name : CStr} (n : ℕ)
    (hread : ∀ cxt, Within start cxt → Legible cxt.mem p pStrings es)
    (hmap : es.map Prod.fst = List.replicate n .nop ++ .beginNode name :: (body ++ .endNode :: rest))
    (hnest : WellNested body) (h : Within start cxt) (hfuel : es.length < fuel) :
    mergeLoop pStrings fuel cxt 0 p = (repeated body ++ [FtCall.endNode]).foldlM FtCxt.call cxt := by
  induction n generalizing fuel p es with
  | zero =>
    obtain ⟨fuel, rfl⟩ := Nat.exists_eq_add_one.mpr (Nat.zero_lt_of_lt hfuel)
    obtain ⟨⟨call, off⟩, es', rfl, hcall, hmap'⟩ := List.map_eq_cons_iff.mp hmap
    cases hcall
    have hlegible := hread cxt h
    have hname : Terminated (.beginNode name) := hlegible.terminated _ List.mem_cons_self
    obtain ⟨htag, hstring, -, halign⟩ := hlegible.struct.beginNode hname
    rw [mergeLoop]
    dsimp only
    rw [htag, if_neg (by decide), if_pos rfl, hstring, Option.bind_eq_bind, Option.bind_some,
      if_neg (by decide), halign]
    have hnest' : nesting [] body = some [] := hnest
    exact mergeLoop_eq (fun cxt h ↦ (hread cxt h).tail) hmap' hnest' h (Nat.lt_of_succ_lt_succ hfuel)
  | succ n ih =>
    obtain ⟨fuel, rfl⟩ := Nat.exists_eq_add_one.mpr (Nat.zero_lt_of_lt hfuel)
    obtain ⟨⟨call, off⟩, es', rfl, hcall, hmap'⟩ := List.map_eq_cons_iff.mp hmap
    cases hcall
    have hstruct := (hread cxt h).struct
    rw [mergeLoop]
    dsimp only
    rw [hstruct.nop, if_neg (by decide), if_neg (by decide), if_neg (by decide), if_pos rfl]
    exact ih (fun cxt h ↦ (hread cxt h).tail) hmap' (Nat.lt_of_succ_lt_succ hfuel)

end Repeat

section Merge

variable {start cxt cxt' : FtCxt} {bph pStruct stop : ℕ} {es : List (FtCall × ℕ)}

theorem kept_of_blob {m : Mem} (h : Blob m bph pStruct stop es)
    (hstart : ∀ k, bph ≤ k → k < stop → start.mem k = m k)
    (hapart : ∀ k, bph ≤ k → k < stop → k < start.pBegin ∨ start.pstrBegin ≤ k) :
    Kept start pStruct (bph + load32 m (bph + 12)) es ∧ ∀ cxt, Frame start cxt →
      bph + load32 cxt.mem (bph + 8) = pStruct ∧
        load32 cxt.mem (bph + 12) = load32 m (bph + 12) := by
  have hkept (cxt : FtCxt) (hframe : Frame start cxt) : Blob cxt.mem bph pStruct stop es ∧
      load32 cxt.mem (bph + 12) = load32 m (bph + 12) :=
    h.congr fun k hk hk' ↦ (hframe.mem k (hapart k hk hk')).trans (hstart k hk hk')
  refine ⟨fun cxt hframe ↦ ?_, fun cxt hframe ↦ ⟨(hkept cxt hframe).1.pStruct_eq,
    (hkept cxt hframe).2⟩⟩
  obtain ⟨hblob, hstrings⟩ := hkept cxt hframe
  rw [← hstrings]
  exact hblob.readable

/-- The end of the last node is taken back. -/
theorem laid_back {table : List CStr} {off : ℕ} (h : Laid cxt (es ++ [(.endNode, off)]) table) :
    load32 cxt.mem (cxt.p - 4) = ofDtEndNode ∧ Laid { cxt with p := cxt.p - 4 } es table := by
  have hencode := encodeAll_concat es .endNode off
  have hp := h.p_eq
  have hle := h.p_le
  have hstruct := h.struct
  rw [hencode, List.length_append, encode_length, size] at hp
  rw [hencode] at hstruct
  have hat : cxt.p - 4 = cxt.pBegin + (encodeAll es).length := by omega
  refine ⟨?_, h.overflow, h.aligned, h.space, hat, ?_, (bytes_eq_append hstruct).1, h.pstr_eq,
    h.strings, fun e he ↦ h.terminated e (List.mem_append_left _ he), h.nulFree,
    fun name data o he ↦ ?_⟩
  · rw [hat]
    exact load32_at (b := []) hstruct
  · dsimp only
    omega
  · exact h.offsets name data o (List.mem_append_left _ he)

theorem endNode_back {table : List CStr} {off : ℕ} (h : Built cxt (es ++ [(.endNode, off)]) table) :
    load32 cxt.mem (cxt.p - 4) = ofDtEndNode ∧ Built { cxt with p := cxt.p - 4 } es table := by
  obtain ⟨htag, hlaid⟩ := laid_back h.laid
  exact ⟨htag, hlaid.built fun e he ↦ h.named e (List.mem_append_left _ he)⟩

theorem ftMergeBlob_overflow (h : cxt.overflow = true) (hmerge : ftMergeBlob cxt bph = some cxt') :
    cxt'.overflow = true := by
  rw [ftMergeBlob] at hmerge
  split_ifs at hmerge
  · cases hmerge
    exact h
  · have h' : ({ cxt with p := cxt.p - 4 } : FtCxt).overflow = true := h
    exact mergeLoop_overflow h' hmerge

theorem ftMergeBlob_spec {m : Mem} (h : Blob m bph pStruct stop es)
    (hstart : ∀ k, bph ≤ k → k < stop → start.mem k = m k)
    (hapart : ∀ k, bph ≤ k → k < stop → k < start.pBegin ∨ start.pstrBegin ≤ k) {name : CStr}
    {body calls : List FtCall} (hmap : es.map Prod.fst = .beginNode name :: (body ++ [.endNode]))
    (hnest : WellNested body) (hrep : Rep start cxt (calls ++ [.endNode]))
    (hmerge : ftMergeBlob cxt bph = some cxt') (hover : cxt'.overflow = false) :
    Rep start cxt' (calls ++ (repeated body ++ [.endNode])) := by
  rcases hrep with hfull | ⟨es₀, table, hcalls, hbuilt, hframe⟩
  · exact absurd (ftMergeBlob_overflow hfull hmerge) (by rw [hover]; decide)
  rw [ftMergeBlob] at hmerge
  obtain ⟨hkept, hwords⟩ := kept_of_blob h hstart hapart
  obtain ⟨hpStruct, hpStrings⟩ := hwords cxt hframe
  obtain ⟨es₁, es₂, rfl, hmap₁, hmap₂⟩ := List.map_eq_append_iff.mp hcalls
  obtain ⟨⟨call, off⟩, rest, rfl, hcall, hnil⟩ := List.map_eq_cons_iff.mp hmap₂
  cases hcall
  cases List.map_eq_nil_iff.mp hnil
  obtain ⟨htag, hbuilt'⟩ := endNode_back hbuilt
  have hframe' := hframe.move (cxt.p - 4)
  have hrep' : Rep start { cxt with p := cxt.p - 4 } calls :=
    .inr ⟨es₁, table, hmap₁, hbuilt', hframe'⟩
  have hwithin := Within.of_built hbuilt'.laid hframe'
  have hmap' : es.map Prod.fst = List.replicate 0 .nop ++ .beginNode name :: (body ++ [.endNode]) := hmap
  have hloop := mergeLoop_root 0 (fun cxt h ↦ legible_of_readable (hkept cxt h.frame)) hmap' hnest
    hwithin (hkept _ hframe').struct.length_lt
  rw [if_neg (not_not.mpr htag), hpStruct, hpStrings, hloop] at hmerge
  have hbody (c : FtCall) (hc : c ∈ body) : Named c := by
    have hin : c ∈ es.map Prod.fst := by
      rw [hmap]
      exact List.mem_cons_of_mem _ (List.mem_append_left _ hc)
    obtain ⟨e, he, rfl⟩ := List.mem_map.mp hin
    exact (hkept _ hframe').named e he
  have hnamed : ∀ c ∈ repeated body ++ [FtCall.endNode], Named c :=
    List.forall_mem_append.mpr ⟨fun c hc ↦ hbody c (List.mem_of_mem_filter hc),
      List.forall_mem_singleton.mpr trivial⟩
  obtain ⟨cxt'', hfold, hrep''⟩ := hrep'.of_calls hnamed
  rw [Option.some.inj (hmerge.symm.trans hfold)]
  exact hrep''

end Merge

end UBoot.Common.FtMerge
