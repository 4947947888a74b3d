import UBoot.Common.FtSpace

namespace UBoot.Common.FtBuffer

open Lib.CString Lib.Memory Lib.StringTable FtBuild FtEncoding FtWithin FtBlob FtMerge FtSpace

/-- A tree as it is built: the buffer, the reserved areas and the calls behind `ft_begin_tree`. -/
structure Session where
  blob : ℕ
  maxSize : ℕ
  rsvmap : List (ℕ × ℕ)
  steps : List Step

namespace Session

variable (m : Mem) (s : Session)

def start : FtCxt := Tree.opened m ⟨s.blob, s.maxSize, s.rsvmap, []⟩

/-- After `n` calls. -/
def after (n : ℕ) : Option FtCxt := (s.steps.take n).foldlM perform (s.start m)

def finished : Option (ℤ × FtCxt) := s.after m s.steps.length >>= ftEndTree

/-- What the structure should hold after `n` calls. -/
def items (n : ℕ) : List FtCall := reference (s.steps.take n)

def Outside (k : ℕ) : Prop := k < s.blob ∨ s.blob + s.maxSize ≤ k

/-- An item of one of the first `n` calls did not fit. -/
def Overrun (n : ℕ) : Prop := ∃ i ≤ n, room (s.start m) < space (s.items i)

/-- Some item did not fit, which may be the end of the structure. -/
def Misfit : Prop :=
  s.Overrun m s.steps.length ∨ room (s.start m) < space (s.items s.steps.length) + 4

/-- A buffer in the address space that is large enough for the header and the reserved areas. -/
structure Buffer : Prop where
  maxSize_lt : s.maxSize < 2147483648
  space : s.blob + s.maxSize ≤ 4294967296
  enough : (s.start m).pBegin ≤ s.blob + s.maxSize

/-- Nothing outside the buffer is written, the areas do not overlap, and `ft_end_tree` says whether
everything has fitted. -/
structure Respects : Prop where
  during : ∀ n, ∃ cxt, s.after m n = some cxt ∧
    (∀ k, s.Outside k → cxt.mem k = (s.start m).mem k) ∧ cxt.p ≤ cxt.pstr
  ended : ∃ rc cxt, s.finished m = some (rc, cxt) ∧
    (∀ k, s.Outside k → cxt.mem k = (s.start m).mem k) ∧
    (rc = 0 → cxt.pBegin + cxt.structSize ≤ cxt.pstrBegin) ∧ (rc = -enomem ↔ s.Misfit m)

end Session

section Trees

/-- A finished tree between `blob` and `stop`. -/
structure FlatTree (m : Mem) (blob stop : ℕ) (es : List (FtCall × ℕ)) : Prop where
  header_le : blob + 16 ≤ stop
  struct : StructAt m (blob + load32 m (blob + 8)) es
  struct_le : blob + load32 m (blob + 8) + (encodeAll es ++ be32 ofDtEnd).length ≤ stop
  terminated : ∀ e ∈ es, Terminated e.1
  off_lt : ∀ name data off, (.prop name data, off) ∈ es → off < 4294967296
  strings_lt : ∀ name data off, (.prop name data, off) ∈ es →
    blob + load32 m (blob + 12) + off + name.length < stop
  strings : ∀ name data off, (.prop name data, off) ∈ es →
    bytes m (blob + load32 m (blob + 12) + off) (name ++ [0]).length = name ++ [0]
  space : stop ≤ 4294967296

/-- A tree with one root, which holds `body`; there may be `OF_DT_NOP`s around the root. -/
def WellFormed (m : Mem) (blob stop : ℕ) (body : List FtCall) : Prop :=
  WellNested body ∧ ∃ es name before behind, FlatTree m blob stop es ∧ es.map Prod.fst =
    List.replicate before .nop ++
      .beginNode name :: (body ++ .endNode :: List.replicate behind .nop)

namespace FlatTree

variable {m m' : Mem} {blob stop : ℕ} {es : List (FtCall × ℕ)}

theorem legible (h : FlatTree m blob stop es) :
    Legible m (blob + load32 m (blob + 8)) (blob + load32 m (blob + 12)) es := by
  refine ⟨h.struct, h.terminated, h.off_lt, fun name data off he ↦ ?_⟩
  have hlt := h.strings_lt name data off he
  have hspace := h.space
  have hname : Terminated (.prop name data) := h.terminated _ he
  exact stringAt_of_bytes hname (h.strings name data off he) (by omega)

theorem congr (h : FlatTree m blob stop es) (hm : ∀ k, blob ≤ k → k < stop → m' k = m k) :
    load32 m' (blob + 8) = load32 m (blob + 8) ∧ load32 m' (blob + 12) = load32 m (blob + 12) ∧
      FlatTree m' blob stop es := by
  have hheader := h.header_le
  have hstruct := h.struct_le
  have hword (i : ℕ) (hi : i ≤ 12) : load32 m' (blob + i) = load32 m (blob + i) :=
    load32_congr fun k hk hk' ↦ hm k (by omega) (by omega)
  have h8 := hword 8 (by decide)
  have h12 := hword 12 (by decide)
  refine ⟨h8, h12, hheader, ?_, ?_, h.terminated, h.off_lt, ?_, ?_, h.space⟩
  · rw [h8]
    exact h.struct.congr fun k hk hk' ↦ hm k (by omega) (by omega)
  · rw [h8]
    exact hstruct
  · rw [h12]
    exact h.strings_lt
  · rw [h12]
    intro name data off he
    have hlt := h.strings_lt name data off he
    refine (bytes_congr fun k hk hk' ↦ hm k (by omega) ?_).trans (h.strings name data off he)
    rw [List.length_append, List.length_singleton] at hk'
    omega

end FlatTree

end Trees

/-- What a call may be given. A blob to merge lies outside the buffer. -/
def Valid (m : Mem) (s : Session) : Step → Prop
  | .call call => Terminated call
  | .merge blob body => ∃ stop, WellFormed m blob stop body ∧
      (stop ≤ s.blob ∨ s.blob + s.maxSize ≤ blob)
  | .backtrack => True

/-- The calls that go on from the end of a node. -/
def TakesBack : Step → Prop
  | .call _ => False
  | .merge .. => True
  | .backtrack => True

/-- The items that a call asks for. -/
def made : Step → List FtCall
  | .call call => [call]
  | .merge _ body => body
  | .backtrack => []

/-- No node is reopened behind a property whose last word is `OF_DT_END_NODE`, the tree with what it is
padded with fits into the buffer, and no address that is compared lies behind the address space. -/
structure Sound (m : Mem) (s : Session) : Prop where
  back : ∀ n (h : n < s.steps.length), TakesBack s.steps[n] →
    s.Overrun m n ∨ ∀ c ∈ (s.items n).getLast?, ¬ EndsLikeNode c
  total : s.Misfit m ∨
    align ((s.start m).pBegin - s.blob + space (s.items s.steps.length) + 4) 16 ≤ s.maxSize
  address : ∀ step ∈ s.steps, ∀ call ∈ made step, s.blob + s.maxSize + space [call] ≤ 4294967296

section Steps

variable {m : Mem} {s : Session} {cxt : FtCxt} {n : ℕ}

/-- After `n` calls: all items have been made and there is room for them, or one did not fit. -/
structure Track (m : Mem) (s : Session) (n : ℕ) (cxt : FtCxt) : Prop where
  within : Within (s.start m) cxt
  holds : Lays cxt (s.items n) ∧ ¬ s.Overrun m n ∨ cxt.overflow = true ∧ s.Overrun m n

theorem Session.items_succ (h : n < s.steps.length) :
    s.items (n + 1) = refStep (s.items n) s.steps[n] := by
  rw [Session.items, reference, List.take_succ_eq_append_getElem h, List.foldl_append]
  rfl

theorem Session.after_succ (h : n < s.steps.length) :
    s.after m (n + 1) = (s.after m n).bind fun cxt ↦ perform cxt s.steps[n] := by
  rw [Session.after, List.take_succ_eq_append_getElem h, List.foldlM_append]
  simp only [List.foldlM_cons, List.foldlM_nil, Option.bind_eq_bind, Option.pure_def,
    Option.bind_fun_some]
  rfl

theorem Session.overrun_succ : s.Overrun m (n + 1) ↔
    s.Overrun m n ∨ room (s.start m) < space (s.items (n + 1)) := by
  constructor
  · rintro ⟨i, hi, hlt⟩
    rcases Nat.le_or_eq_of_le_succ hi with hi | rfl
    · exact .inl ⟨i, hi, hlt⟩
    · exact .inr hlt
  · rintro (⟨i, hi, hlt⟩ | hlt)
    · exact ⟨i, hi.trans (Nat.le_succ n), hlt⟩
    · exact ⟨n + 1, le_rfl, hlt⟩

theorem Track.of_fits (hw : Within (s.start m) cxt) (hfit : ¬ s.Overrun m n)
    (h : Lays cxt (s.items (n + 1)) ∨
      cxt.overflow = true ∧ room (s.start m) < space (s.items (n + 1))) : Track m s (n + 1) cxt := by
  refine ⟨hw, h.imp (fun hlays ↦ ⟨hlays, fun hover ↦ ?_⟩) fun hover ↦
    ⟨hover.1, Session.overrun_succ.mpr (.inr hover.2)⟩⟩
  have hfree := hlays.free hw.frame
  rcases Session.overrun_succ.mp hover with hover | hlt
  · exact hfit hover
  · omega

theorem Track.of_overflow (hw : Within (s.start m) cxt) (hover : cxt.overflow = true)
    (h : s.Overrun m n) : Track m s (n + 1) cxt :=
  ⟨hw, .inr ⟨hover, Session.overrun_succ.mpr (.inl h)⟩⟩

theorem Session.start_header (m : Mem) (s : Session) : (s.start m).bph = s.blob ∧
    (s.start m).pstrBegin = s.blob + s.maxSize ∧ s.blob + 36 ≤ (s.start m).pBegin ∧
    ∀ k, k < s.blob ∨ (s.start m).pBegin ≤ k → (s.start m).mem k = m k := by
  obtain ⟨hbph, hend, hle, -, hmem⟩ := opened_header m ⟨s.blob, s.maxSize, s.rsvmap, []⟩
  exact ⟨hbph, hend, hle, hmem⟩

theorem Session.outside_eq (hb : s.Buffer m) (hframe : Frame (s.start m) cxt) {k : ℕ}
    (hk : s.Outside k) : cxt.mem k = (s.start m).mem k ∧ (s.start m).mem k = m k := by
  obtain ⟨-, hend, hle, hmem⟩ := s.start_header m
  have henough := hb.enough
  rcases hk with hk | hk
  · exact ⟨hframe.mem k (.inl (by omega)), hmem k (.inl hk)⟩
  · exact ⟨hframe.mem k (.inr (by omega)), hmem k (.inr (by omega))⟩

theorem terminator_eq (hframe : Frame (s.start m) cxt) : load32 cxt.mem (cxt.pBegin - 4) = 0 := by
  obtain ⟨-, -, hle, -⟩ := s.start_header m
  rw [hframe.pBegin, load32_congr fun k hk hk' ↦ hframe.mem k (.inl (by omega))]
  exact opened_terminator m _

theorem within_back {start : FtCxt} (h : Within start cxt)
    (hlow : cxt.overflow = false → start.pBegin ≤ cxt.p - 4) :
    Within start { cxt with p := cxt.p - 4 } where
  frame := h.frame.move _
  low := hlow
  apart := (Nat.sub_le _ _).trans h.apart
  high := h.high
  aligned := by
    have hmod := h.aligned
    dsimp only
    omega

/-- The merge makes the calls that the root of the blob stands for. -/
theorem merge_eq (hb : s.Buffer m) {blob : ℕ} {body : List FtCall}
    (hvalid : Valid m s (.merge blob body)) (hw : Within (s.start m) { cxt with p := cxt.p - 4 })
    (hword : load32 cxt.mem (cxt.p - 4) = ofDtEndNode) :
    ftMergeBlob cxt blob =
        (repeated body ++ [FtCall.endNode]).foldlM FtCxt.call { cxt with p := cxt.p - 4 } ∧
      ∀ c ∈ repeated body ++ [FtCall.endNode], Terminated c := by
  obtain ⟨stop, ⟨hnest, es, name, before, behind, hflat, hmap⟩, hapart⟩ := hvalid
  have hsame (cxt : FtCxt) (hw : Within (s.start m) cxt) (k : ℕ) (hk : blob ≤ k) (hk' : k < stop) :
      cxt.mem k = m k := by
    have hout : s.Outside k := hapart.imp (by omega) (by omega)
    obtain ⟨hrun, hstart⟩ := Session.outside_eq hb hw.frame hout
    exact hrun.trans hstart
  have hread (cxt : FtCxt) (hw : Within (s.start m) cxt) :
      Legible cxt.mem (blob + load32 m (blob + 8)) (blob + load32 m (blob + 12)) es := by
    obtain ⟨h8, h12, hflat'⟩ := hflat.congr (hsame cxt hw)
    rw [← h8, ← h12]
    exact hflat'.legible
  obtain ⟨h8, h12, -⟩ := hflat.congr (hsame _ hw)
  dsimp only at h8 h12
  refine ⟨?_, List.forall_mem_append.mpr ⟨fun c hc ↦ ?_, List.forall_mem_singleton.mpr trivial⟩⟩
  · rw [ftMergeBlob, if_neg (not_not.mpr hword), h8, h12]
    exact mergeLoop_root before hread hmap hnest hw hflat.struct.length_lt
  · have hin : c ∈ es.map Prod.fst := by
      rw [hmap]
      exact List.mem_append_right _ (List.mem_cons_of_mem _
        (List.mem_append_left _ (List.mem_of_mem_filter hc)))
    obtain ⟨e, he, rfl⟩ := List.mem_map.mp hin
    exact hflat.terminated e he

theorem Track.step (hb : s.Buffer m) (h : Track m s n cxt) (hn : n < s.steps.length)
    (hvalid : Valid m s s.steps[n])
    (hback : TakesBack s.steps[n] → s.Overrun m n ∨ ∀ c ∈ (s.items n).getLast?, ¬ EndsLikeNode c) :
    ∃ cxt', perform cxt s.steps[n] = some cxt' ∧ Track m s (n + 1) cxt' := by
  have hitems := Session.items_succ hn
  have hw := h.within
  generalize s.steps[n] = step at *
  rcases h.holds with ⟨hlays, hfit⟩ | ⟨hover, hrun⟩
  · cases step with
    | call call =>
      obtain ⟨cxt', hcall, hmade⟩ := hlays.of_call hw.frame hvalid
      refine ⟨cxt', hcall, .of_fits (hw.call hcall) hfit ?_⟩
      rw [hitems]
      exact hmade
    | backtrack =>
      rw [perform, ftBacktrackNode]
      rcases hlays.reopen (terminator_eq hw.frame) ((hback trivial).resolve_left hfit) with
        ⟨hword, hnone⟩ | ⟨hword, items', hsome, hlays'⟩
      · rw [if_pos hword]
        refine ⟨cxt, rfl, .of_fits hw hfit (.inl ?_)⟩
        rw [hitems, refStep, hnone]
        exact hlays
      · rw [if_neg (not_not.mpr hword)]
        refine ⟨_, rfl, .of_fits (hlays'.within (hw.frame.move _)) hfit (.inl ?_)⟩
        rw [hitems, refStep, hsome]
        exact hlays'
    | merge blob body =>
      rw [perform]
      rcases hlays.reopen (terminator_eq hw.frame) ((hback trivial).resolve_left hfit) with
        ⟨hword, hnone⟩ | ⟨hword, items', hsome, hlays'⟩
      · rw [ftMergeBlob, if_pos hword]
        refine ⟨cxt, rfl, .of_fits hw hfit (.inl ?_)⟩
        rw [hitems, refStep, hnone]
        exact hlays
      · have hw' : Within (s.start m) { cxt with p := cxt.p - 4 } :=
          hlays'.within (hw.frame.move _)
        obtain ⟨hmerge, hnames⟩ := merge_eq hb hvalid hw' hword
        obtain ⟨cxt', hfold, hw'', hmade⟩ := hlays'.of_calls hw' hnames
        refine ⟨cxt', hmerge.trans hfold, .of_fits hw'' hfit ?_⟩
        rw [hitems, refStep, hsome]
        exact hmade
  · have hw' : Within (s.start m) { cxt with p := cxt.p - 4 } :=
      within_back hw fun hfalse ↦ absurd hfalse (by rw [hover]; decide)
    have hover' : ({ cxt with p := cxt.p - 4 } : FtCxt).overflow = true := hover
    cases step with
    | call call => exact ⟨cxt, call_overflow hover call, .of_overflow hw hover hrun⟩
    | backtrack =>
      rw [perform, ftBacktrackNode]
      split_ifs
      · exact ⟨cxt, rfl, .of_overflow hw hover hrun⟩
      · exact ⟨_, rfl, .of_overflow hw' hover' hrun⟩
    | merge blob body =>
      rw [perform]
      by_cases hword : load32 cxt.mem (cxt.p - 4) = ofDtEndNode
      · obtain ⟨hmerge, -⟩ := merge_eq hb hvalid hw' hword
        exact ⟨_, hmerge.trans (calls_overflow hover' _), .of_overflow hw' hover' hrun⟩
      · rw [ftMergeBlob, if_pos hword]
        exact ⟨cxt, rfl, .of_overflow hw hover hrun⟩

theorem track_start (hb : s.Buffer m) : Track m s 0 (s.start m) := by
  have hlaid := opened_laid hb.space hb.enough
  have hlays : Lays (s.start m) [] := ⟨[], rfl, hlaid⟩
  have hw := hlays.within (Frame.refl (s.start m))
  refine ⟨hw, .inl ⟨hlays, ?_⟩⟩
  rintro ⟨i, hi, hlt⟩
  obtain rfl := Nat.le_zero.mp hi
  exact absurd hlt (Nat.not_lt_zero _)

theorem track_after (hb : s.Buffer m) (hvalid : ∀ step ∈ s.steps, Valid m s step)
    (hsound : Sound m s) (hn : n ≤ s.steps.length) :
    ∃ cxt, s.after m n = some cxt ∧ Track m s n cxt := by
  induction n with
  | zero => exact ⟨_, rfl, track_start hb⟩
  | succ n ih =>
    obtain ⟨cxt, hafter, htrack⟩ := ih (Nat.le_of_succ_le hn)
    obtain ⟨cxt', hstep, htrack'⟩ := htrack.step hb hn (hvalid _ (List.getElem_mem hn))
      (hsound.back n hn)
    refine ⟨cxt', ?_, htrack'⟩
    rw [Session.after_succ hn, hafter, Option.bind_some, hstep]

/-- The table and the zeros behind it stay below the size that the header names. -/
theorem endTree_outside (hb : s.Buffer m) {items : List FtCall} (h : Lays cxt items)
    (hframe : Frame (s.start m) cxt) (hroom : cxt.p + 4 ≤ cxt.pstr)
    (htotal : align ((s.start m).pBegin - s.blob + space items + 4) 16 ≤ s.maxSize) :
    ∃ cxt', ftEndTree cxt = some (0, cxt') ∧
      (∀ k, s.Outside k → cxt'.mem k = (s.start m).mem k) ∧
      cxt'.pBegin + cxt'.structSize = cxt'.pstrBegin := by
  obtain ⟨hbph, hend, hheader, -⟩ := s.start_header m
  obtain ⟨es, rfl, hlaid⟩ := h
  have hp := hlaid.p_eq
  have hpstr := hlaid.pstr_eq
  have hbegin := hframe.pBegin
  have hstop := hframe.pstrBegin
  have hblob := hframe.bph
  have henough := hb.enough
  obtain ⟨mem, cxt', hfinish, hareas, hmem, -, hsame⟩ := ftEndTree_laid hlaid hroom (by omega)
  refine ⟨cxt', hfinish, fun k hk ↦ ?_, hareas⟩
  rw [encodeAll_length] at hp
  have hsize : cxt.p + 4 + (packed (nameTable (es.map Prod.fst))).length - cxt.bph =
      (s.start m).pBegin - s.blob + space (es.map Prod.fst) + 4 := by
    rw [space]
    omega
  rw [hmem, hsize]
  rw [← (Session.outside_eq hb hframe hk).1]
  generalize align ((s.start m).pBegin - s.blob + space (es.map Prod.fst) + 4) 16 = total at *
  rcases hk with hk | hk
  · rw [store_of_lt _ _ (by omega), store_of_lt _ _ (by omega), hsame k (.inl (by omega)),
      store_of_lt _ _ (by omega), store_of_lt _ _ (by omega)]
  · have hwords (a b c : ℕ) : (be32 a ++ (be32 b ++ be32 c)).length = 12 := rfl
    have hword : (be32 ofDtEnd).length = 4 := rfl
    have hspace : space (es.map Prod.fst) =
        ((es.map Prod.fst).map size).sum + (packed (nameTable (es.map Prod.fst))).length := rfl
    rw [store_of_le _ (by rw [hwords]; omega),
      store_of_le _ (by rw [List.length_replicate]; omega), hsame k (.inr (by omega)),
      store_of_le _ (by omega), store_of_le _ (by omega)]

theorem endTree_track (hb : s.Buffer m) (h : Track m s s.steps.length cxt)
    (htotal : s.Misfit m ∨
      align ((s.start m).pBegin - s.blob + space (s.items s.steps.length) + 4) 16 ≤ s.maxSize) :
    ∃ rc cxt', ftEndTree cxt = some (rc, cxt') ∧
      (∀ k, s.Outside k → cxt'.mem k = (s.start m).mem k) ∧
      (rc = 0 → cxt'.pBegin + cxt'.structSize ≤ cxt'.pstrBegin) ∧ (rc = -enomem ↔ s.Misfit m) := by
  have hframe := h.within.frame
  have hfull (hfull : cxt.overflow = true ∨ cxt.pstr < cxt.p + 4) (hmisfit : s.Misfit m) :
      ∃ rc cxt', ftEndTree cxt = some (rc, cxt') ∧
        (∀ k, s.Outside k → cxt'.mem k = (s.start m).mem k) ∧
        (rc = 0 → cxt'.pBegin + cxt'.structSize ≤ cxt'.pstrBegin) ∧
        (rc = -enomem ↔ s.Misfit m) := by
    obtain ⟨cxt', hend, hmem⟩ := ftEndTree_full hfull
    refine ⟨_, cxt', hend, fun k hk ↦ ?_, fun hrc ↦ absurd hrc (by decide),
      iff_of_true rfl hmisfit⟩
    rw [hmem]
    exact (Session.outside_eq hb hframe hk).1
  rcases h.holds with ⟨hlays, hfit⟩ | ⟨hover, hrun⟩
  · have hfree := hlays.free hframe
    have hle := hlays.p_le
    by_cases hroom : cxt.pstr < cxt.p + 4
    · exact hfull (.inr hroom) (.inr (by omega))
    · have hmisfit : ¬ s.Misfit m := by
        rintro (hrun | hlt)
        · exact hfit hrun
        · omega
      obtain ⟨cxt', hend, hout, hareas⟩ := endTree_outside hb hlays hframe (not_lt.mp hroom)
        (htotal.resolve_left hmisfit)
      exact ⟨0, cxt', hend, hout, fun _ ↦ hareas.le, iff_of_false (by decide) hmisfit⟩
  · exact hfull (.inl hover) (.inl hrun)

end Steps

/-- A session that is sound respects its buffer. -/
theorem builder_respects {m : Mem} {s : Session} (hb : s.Buffer m)
    (hvalid : ∀ step ∈ s.steps, Valid m s step) (hsound : Sound m s) : s.Respects m := by
  have hafter (n : ℕ) (hn : n ≤ s.steps.length) : ∃ cxt, s.after m n = some cxt ∧ Track m s n cxt :=
    track_after hb hvalid hsound hn
  refine ⟨fun n ↦ ?_, ?_⟩
  · have hmin : s.after m n = s.after m (min n s.steps.length) := by
      rw [Session.after, Session.after, ← List.take_eq_take_min]
    obtain ⟨cxt, hrun, htrack⟩ := hafter (min n s.steps.length) (Nat.min_le_right _ _)
    refine ⟨cxt, hmin.trans hrun, fun k hk ↦ ?_, htrack.within.apart⟩
    exact (Session.outside_eq hb htrack.within.frame hk).1
  · obtain ⟨cxt, hrun, htrack⟩ := hafter s.steps.length le_rfl
    rw [Session.finished, hrun]
    exact endTree_track hb htrack hsound.total

/-- A root with a property, which is ended, reopened and ended again. -/
def sampleSession : Session where
  blob := 0x81000000
  maxSize := 128
  rsvmap := [(0, 4096)]
  steps := [.call (.beginNode []), .call (.prop (ascii "a") [1]), .call .endNode, .backtrack,
    .call .endNode]

def erased : Mem := fun _ ↦ 0xff

theorem sampleSession_buffer : sampleSession.Buffer erased :=
  ⟨by decide, by decide, by decide +kernel⟩

theorem sampleSession_valid : ∀ step ∈ sampleSession.steps, Valid erased sampleSession step := by
  have hname : NulFree (ascii "a") := by decide
  have hroot : NulFree [] := by decide
  simp only [sampleSession, List.forall_mem_cons, Valid, Terminated, hname, hroot, true_and]
  exact fun step hstep ↦ absurd hstep List.not_mem_nil

theorem sampleSession_sound : Sound erased sampleSession where
  back n hn hback := by
    obtain rfl | rfl | rfl | rfl | rfl : n = 0 ∨ n = 1 ∨ n = 2 ∨ n = 3 ∨ n = 4 := by
      have hlt : n < 5 := hn
      omega
    · exact hback.elim
    · exact hback.elim
    · exact hback.elim
    · refine .inr fun c hc ↦ ?_
      obtain rfl : FtCall.endNode = c := Option.some.inj hc
      exact id
    · exact hback.elim
  total := .inr (by decide +kernel)
  address := by decide +kernel

theorem builder_respects_sample : sampleSession.Buffer erased ∧ Sound erased sampleSession ∧
    sampleSession.Respects erased :=
  ⟨sampleSession_buffer, sampleSession_sound,
    builder_respects sampleSession_buffer sampleSession_valid sampleSession_sound⟩

/-- A buffer with space for an empty tree, but not for the zeros behind it. -/
def emptySession : Session where
  blob := 0x81000000
  maxSize := 60
  rsvmap := []
  steps := []

/-- The last 4 of the 64 bytes of an empty tree lie behind a buffer of 60 bytes. -/
theorem padded_outside : emptySession.Buffer erased ∧ ¬ emptySession.Respects erased := by
  refine ⟨⟨by decide, by decide, by decide +kernel⟩, fun h ↦ ?_⟩
  obtain ⟨rc, cxt, hend, hout, -⟩ := h.ended
  have hbyte := hout (0x81000000 + 60) (.inr le_rfl)
  have hmem : (emptySession.finished erased).map (fun r ↦ r.2.mem (0x81000000 + 60)) = some 0 := by
    decide +kernel
  have hstart : (emptySession.start erased).mem (0x81000000 + 60) = 0xff := by decide +kernel
  rw [hend, Option.map_some, hbyte, hstart] at hmem
  exact absurd hmem (by decide)

end UBoot.Common.FtBuffer
