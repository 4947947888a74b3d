import UBoot.Common.FtEncoding

namespace UBoot.Common.FtBlob

open Lib.CString Lib.Memory Lib.StringTable FtBuild FtEncoding

section Fixup

/-- The offsets of the names after the table has moved down. -/
def relocate (off : ℕ) (es : List (FtCall × ℕ)) : List (FtCall × ℕ) :=
  es.map fun e ↦ (e.1, e.2 - off)

theorem map_relocate (off : ℕ) (es : List (FtCall × ℕ)) :
    (relocate off es).map Prod.fst = es.map Prod.fst := by
  rw [relocate, List.map_map]
  rfl

theorem relocate_length (off : ℕ) (es : List (FtCall × ℕ)) :
    (encodeAll (relocate off es)).length = (encodeAll es).length := by
  rw [encodeAll_length, encodeAll_length, map_relocate]

theorem mem_relocate {off off' : ℕ} {call : FtCall} {es : List (FtCall × ℕ)}
    (h : (call, off') ∈ relocate off es) : ∃ o, (call, o) ∈ es ∧ off' = o - off := by
  obtain ⟨⟨call', o⟩, he, heq⟩ := List.mem_map.mp h
  obtain ⟨rfl, rfl⟩ := Prod.mk.inj heq
  exact ⟨o, he, rfl⟩

theorem prop_store {m : Mem} {p o : ℕ} {name : CStr} {data : List UInt8}
    (h : bytes m p (encode o (.prop name data)).length = encode o (.prop name data)) (v : ℕ) :
    bytes (store m (p + 8) (be32 v)) p (encode v (.prop name data)).length =
      encode v (.prop name data) := by
  have hlen (v : ℕ) : (encode v (.prop name data)).length =
      8 + (be32 v).length + (padded data).length := by
    rw [encode_length, size, padded_length, be32_length]
  have htags : (be32 ofDtProp ++ be32 data.length).length = 8 := rfl
  have hold : (be32 ofDtProp ++ be32 data.length ++ be32 o).length = 8 + (be32 v).length := rfl
  have hsplit (v : ℕ) : encode v (.prop name data) =
      be32 ofDtProp ++ be32 data.length ++ be32 v ++ padded data := by
    rw [encode, List.append_assoc, List.append_assoc]
  have hbytes : bytes m p (8 + (be32 v).length + (padded data).length) =
      be32 ofDtProp ++ be32 data.length ++ be32 o ++ padded data := by
    rw [← hsplit, ← h, hlen]
    rfl
  rw [hlen, bytes_store_middle, hbytes, List.drop_left' hold, List.append_assoc _ (be32 o),
    List.take_left' htags, hsplit]

theorem fixupLoop_spec (off : ℕ) {es : List (FtCall × ℕ)} {m : Mem} {p fuel : ℕ}
    (h : StructAt m p es) (hnames : ∀ e ∈ es, Terminated e.1)
    (hoff : ∀ name data o, (.prop name data, o) ∈ es → off ≤ o ∧ o < 4294967296)
    (hfuel : es.length < fuel) :
    ∃ m', fixupLoop off fuel m p = some (0, m') ∧ StructAt m' p (relocate off es) ∧
      ∀ k, k < p ∨ p + (encodeAll es).length ≤ k → m' k = m k := by
  induction es generalizing m p fuel with
  | nil =>
    obtain ⟨fuel, rfl⟩ := Nat.exists_eq_add_one.mpr hfuel
    rw [fixupLoop]
    dsimp only
    rw [h.of_nil, if_pos rfl]
    exact ⟨m, rfl, h, fun _ _ ↦ rfl⟩
  | cons e es ih =>
    obtain ⟨fuel, rfl⟩ := Nat.exists_eq_add_one.mpr (Nat.zero_lt_of_lt hfuel)
    obtain ⟨call, o⟩ := e
    obtain ⟨hcall, hrest⟩ := List.forall_mem_cons.mp hnames
    have hstep (m₁ : Mem)
        (hhead : bytes m₁ p (encode (o - off) call).length = encode (o - off) call)
        (hm₁ : ∀ k, k < p ∨ p + size call ≤ k → m₁ k = m k) :
        ∃ m', fixupLoop off fuel m₁ (p + size call) = some (0, m') ∧
          StructAt m' p (relocate off ((call, o) :: es)) ∧
          ∀ k, k < p ∨ p + (encodeAll ((call, o) :: es)).length ≤ k → m' k = m k := by
      have htail : StructAt m₁ (p + size call) es := h.tail.congr fun k hk _ ↦ hm₁ k (.inr hk)
      obtain ⟨m', hloop, hstruct, hm'⟩ := ih htail hrest
        (fun name data o' he ↦ hoff name data o' (List.mem_cons_of_mem _ he))
        (Nat.lt_of_succ_lt_succ hfuel)
      refine ⟨m', hloop, hstruct.cons ?_ h.aligned, fun k hk ↦ ?_⟩
      · rw [← hhead, bytes_length]
        refine bytes_congr fun k _ hk ↦ hm' k (.inl ?_)
        rwa [encode_length] at hk
      · rw [encodeAll_cons, List.length_append, encode_length] at hk
        rw [hm' k (by omega), hm₁ k (by omega)]
    rw [fixupLoop]
    dsimp only
    cases call with
    | beginNode name =>
      obtain ⟨htag, -, hlen, hnext⟩ := h.beginNode hcall
      rw [htag, if_neg (by decide), if_pos rfl, hlen, Option.bind_eq_bind, Option.bind_some, hnext]
      exact hstep m h.head fun _ _ ↦ rfl
    | endNode =>
      rw [h.endNode, if_neg (by decide), if_neg (by decide), if_pos (.inl rfl)]
      exact hstep m h.head fun _ _ ↦ rfl
    | nop =>
      rw [h.nop, if_neg (by decide), if_neg (by decide), if_pos (.inr rfl)]
      exact hstep m h.head fun _ _ ↦ rfl
    | prop name data =>
      obtain ⟨hle, hlt⟩ := hoff name data o List.mem_cons_self
      obtain ⟨htag, hsz, ho, -, hnext⟩ := h.prop
      have hv : (o % 4294967296 + 4294967296 - off) % 4294967296 = o - off := by omega
      rw [htag, if_neg (by decide), if_neg (by decide), if_neg (by decide),
        if_neg (not_not.mpr rfl), hsz, ho, hv, hnext]
      have hsize : 12 ≤ size (.prop name data) := Nat.le_add_right _ _
      refine hstep _ (prop_store h.head _) fun k hk ↦ ?_
      rcases hk with hk | hk
      · exact store_of_lt _ _ (by omega)
      · exact store_of_le _ (by rw [be32_length]; omega)

end Fixup

/-- A finished tree that reaches up to `stop`. -/
structure Blob (m : Mem) (bph pStruct stop : ℕ) (es : List (FtCall × ℕ)) : Prop where
  pStruct_eq : bph + load32 m (bph + 8) = pStruct
  version : load32 m (bph + 20) = 0x10
  struct : StructAt m pStruct es
  named : ∀ e ∈ es, Named e.1
  off_lt : ∀ name data off, (.prop name data, off) ∈ es → off < 4294967296
  strings_lt : ∀ name data off, (.prop name data, off) ∈ es →
    bph + load32 m (bph + 12) + off + name.length < stop
  strings : ∀ name data off, (.prop name data, off) ∈ es →
    bytes m (bph + load32 m (bph + 12) + off) (name ++ [0]).length = name ++ [0]
  header_le : bph + 24 ≤ pStruct
  struct_le : pStruct + (encodeAll es ++ be32 ofDtEnd).length ≤ stop
  space : stop ≤ 4294967296

/-- From `p` on the structure and the names of its properties can be read. -/
structure Readable (m : Mem) (p pStrings : ℕ) (es : List (FtCall × ℕ)) : Prop where
  struct : StructAt m p es
  named : ∀ e ∈ es, Named e.1
  off_lt : ∀ name data off, (.prop name data, off) ∈ es → off < 4294967296
  strings : ∀ name data off, (.prop name data, off) ∈ es →
    stringAt m (pStrings + off) = some name

theorem Readable.tail {m : Mem} {p pStrings off : ℕ} {call : FtCall} {es : List (FtCall × ℕ)}
    (h : Readable m p pStrings ((call, off) :: es)) : Readable m (p + size call) pStrings es where
  struct := h.struct.tail
  named e he := h.named e (List.mem_cons_of_mem _ he)
  off_lt name data off he := h.off_lt name data off (List.mem_cons_of_mem _ he)
  strings name data off he := h.strings name data off (List.mem_cons_of_mem _ he)

namespace Blob

variable {m m' : Mem} {bph pStruct stop : ℕ} {es : List (FtCall × ℕ)}

theorem readable (h : Blob m bph pStruct stop es) :
    Readable m pStruct (bph + load32 m (bph + 12)) es := by
  refine ⟨h.struct, h.named, h.off_lt, fun name data off he ↦ ?_⟩
  have hlt := h.strings_lt name data off he
  have hspace := h.space
  have hnamed : Named (.prop name data) := h.named _ he
  exact stringAt_of_bytes hnamed.1 (h.strings name data off he) (by omega)

theorem congr (h : Blob m bph pStruct stop es) (hm : ∀ k, bph ≤ k → k < stop → m' k = m k) :
    Blob m' bph pStruct stop es ∧ load32 m' (bph + 12) = load32 m (bph + 12) := by
  have hheader := h.header_le
  have hstruct := h.struct_le
  have hword (i : ℕ) (hi : i ≤ 20) : load32 m' (bph + i) = load32 m (bph + i) :=
    load32_congr fun k hk hk' ↦ hm k (by omega) (by omega)
  refine ⟨⟨?_, ?_, ?_, h.named, h.off_lt, ?_, ?_, hheader, hstruct, h.space⟩, hword 12 (by decide)⟩
  · rw [hword 8 (by decide), h.pStruct_eq]
  · rw [hword 20 (by decide), h.version]
  · exact h.struct.congr fun k hk hk' ↦ hm k (by omega) (by omega)
  · rw [hword 12 (by decide)]
    exact h.strings_lt
  · rw [hword 12 (by decide)]
    intro name data off he
    have hlt := h.strings_lt name data off he
    refine (bytes_congr fun k hk hk' ↦ hm k (by omega) ?_).trans (h.strings name data off he)
    rw [List.length_append, List.length_singleton] at hk'
    omega

end Blob

section EndTree

variable {start cxt : FtCxt} {es : List (FtCall × ℕ)} {table : List CStr} {calls : List FtCall}

theorem off_le (h : Laid cxt es table) (hle : cxt.pBegin ≤ cxt.pstr) {name : CStr}
    {data : List UInt8} {o : ℕ} (he : (.prop name data, o) ∈ es) :
    cxt.pstr - cxt.pBegin ≤ o ∧ o < 4294967296 := by
  obtain ⟨rest, ⟨front, hfront⟩, hat⟩ := h.offsets name data o he
  have hpstr := h.pstr_eq
  have hspace := h.space
  have hlen := packed_cons_length name rest
  rw [← hfront, packed_append, List.length_append] at hpstr
  omega

/-- The strings behind the structure, and the header. -/
theorem blob_of_built (h : Built cxt es table) {m : Mem} {pStrings : ℕ}
    (hheader : cxt.bph + 24 ≤ cxt.pBegin) (hle : cxt.pBegin ≤ cxt.pstr)
    (hpStrings : cxt.pBegin + (encodeAll es ++ be32 ofDtEnd).length = pStrings)
    (hstop : pStrings + (packed table).length ≤ 4294967296)
    (hstruct : StructAt m cxt.pBegin (relocate (cxt.pstr - cxt.pBegin) es))
    (hstrings : bytes m pStrings (packed table).length = packed table)
    (hoff : cxt.bph + load32 m (cxt.bph + 8) = cxt.pBegin)
    (hoff' : cxt.bph + load32 m (cxt.bph + 12) = pStrings)
    (hversion : load32 m (cxt.bph + 20) = 0x10) :
    Blob m cxt.bph cxt.pBegin (pStrings + (packed table).length)
      (relocate (cxt.pstr - cxt.pBegin) es) := by
  have hplace (name : CStr) (data : List UInt8) (off : ℕ)
      (he : (.prop name data, off) ∈ relocate (cxt.pstr - cxt.pBegin) es) : ∃ rest,
      name :: rest <:+ table ∧ off < 4294967296 ∧
        pStrings + off + (packed (name :: rest)).length = pStrings + (packed table).length := by
    obtain ⟨o, ho, rfl⟩ := mem_relocate he
    obtain ⟨hle', hlt⟩ := off_le h.laid hle ho
    obtain ⟨rest, hsuffix, hat⟩ := h.offsets name data o ho
    have hpstr := h.pstr_eq
    exact ⟨rest, hsuffix, by omega, by omega⟩
  refine ⟨hoff, hversion, hstruct, fun e he ↦ ?_, fun name data off he ↦ ?_,
    fun name data off he ↦ ?_, fun name data off he ↦ ?_, hheader, ?_, hstop⟩
  · have he' : (e.1, e.2) ∈ relocate (cxt.pstr - cxt.pBegin) es := he
    obtain ⟨o, ho, -⟩ := mem_relocate he'
    have hcall := h.named _ ho
    exact hcall
  · obtain ⟨rest, -, hlt, -⟩ := hplace name data off he
    exact hlt
  · obtain ⟨rest, -, -, hat⟩ := hplace name data off he
    rw [packed_cons_length] at hat
    omega
  · obtain ⟨rest, hsuffix, -, hat⟩ := hplace name data off he
    rw [hoff']
    exact bytes_of_suffix hstrings hsuffix hat
  · rw [List.length_append, relocate_length, ← List.length_append, hpStrings]
    exact Nat.le_add_right _ _

theorem load32_store_be32 (m : Mem) (off v : ℕ) (a b : List UInt8) :
    load32 (store m off (a ++ (be32 v ++ b))) (off + a.length) = v % 4294967296 :=
  load32_at (bytes_store m off _)

/-- `ft_end_tree` where there is room for the last word: the table stands behind the structure, whose
offsets have been moved down, and behind it zeros up to the size that the header names. -/
theorem ftEndTree_laid (h : Laid cxt es table) (hroom : cxt.p + 4 ≤ cxt.pstr)
    (hbph : cxt.bph ≤ cxt.pBegin) : ∃ m cxt', ftEndTree cxt = some (0, cxt') ∧
      cxt'.pBegin + cxt'.structSize = cxt'.pstrBegin ∧
      cxt'.mem = store (store m (cxt.p + 4 + (packed table).length)
          (List.replicate (align (cxt.p + 4 + (packed table).length - cxt.bph) 16 -
            (cxt.p + 4 + (packed table).length - cxt.bph)) 0))
        (cxt.bph + 4) (be32 (align (cxt.p + 4 + (packed table).length - cxt.bph) 16) ++
          (be32 (cxt.pBegin - cxt.bph) ++ be32 (cxt.p + 4 - cxt.bph))) ∧
      StructAt m cxt.pBegin (relocate (cxt.pstr - cxt.pBegin) es) ∧
      ∀ k, k < cxt.pBegin ∨ cxt.p ≤ k → m k =
        store (store cxt.mem cxt.p (be32 ofDtEnd)) (cxt.p + 4) (packed table) k := by
  have hput := fills_word cxt ofDtEnd h.overflow hroom
  have hover : ¬ cxt.overflow = true := by
    rw [h.overflow]
    decide
  have hp := h.p_eq
  have hpstr := h.pstr_eq
  have hspace := h.space
  rw [ftEndTree]
  dsimp only
  rw [hput]
  dsimp only
  rw [if_neg hover, be32_length]
  have hsize : cxt.p + 4 - cxt.pBegin = (encodeAll es ++ be32 ofDtEnd).length := by
    rw [List.length_append, be32_length]
    omega
  have hstrings : cxt.pstrBegin - cxt.pstr = (packed table).length := by omega
  have hoff : cxt.pstrBegin - cxt.pBegin - (packed table).length = cxt.pstr - cxt.pBegin := by omega
  have hend : cxt.pBegin + (encodeAll es ++ be32 ofDtEnd).length = cxt.p + 4 := by omega
  rw [hsize, hstrings, hoff, hend]
  have hmove : bytes (store cxt.mem cxt.p (be32 ofDtEnd)) cxt.pstr (packed table).length =
      packed table := by
    rw [bytes_store_of_le _ (by rw [be32_length]; omega), h.strings]
  rw [hmove]
  -- the structure with its end, before the offsets are moved down
  have hstruct : StructAt (store (store cxt.mem cxt.p (be32 ofDtEnd)) (cxt.p + 4) (packed table))
      cxt.pBegin es := by
    refine ⟨?_, h.aligned, by omega⟩
    rw [bytes_store_of_lt _ _ hend.le, List.length_append, bytes_append, ← hp, bytes_store,
      bytes_store_of_lt _ _ hp.ge, h.struct]
  obtain ⟨m, hloop, hstruct', hm⟩ := fixupLoop_spec (cxt.pstr - cxt.pBegin) hstruct h.terminated
    (fun name data o he ↦ off_le h (by omega) he) hstruct.length_lt
  rw [hloop]
  dsimp only [Option.bind_eq_bind, Option.bind_some]
  rw [if_neg (not_not.mpr rfl)]
  have hsz : cxt.bph + (cxt.p + 4 + (packed table).length - cxt.bph) =
      cxt.p + 4 + (packed table).length := by omega
  rw [hsz]
  rw [← hp] at hm
  exact ⟨m, _, rfl, hend, rfl, hstruct', hm⟩

theorem ftEndTree_full (h : cxt.overflow = true ∨ cxt.pstr < cxt.p + 4) :
    ∃ cxt', ftEndTree cxt = some (-enomem, cxt') ∧ cxt'.mem = cxt.mem := by
  rw [ftEndTree]
  dsimp only
  by_cases hover : cxt.overflow = true
  · rw [ftPutWord_overflow hover, if_pos hover]
    exact ⟨_, rfl, rfl⟩
  · rw [ftPutWord, if_neg hover, if_pos (h.resolve_left hover)]
    exact ⟨_, rfl, rfl⟩

theorem ftEndTree_spec (h : Rep start cxt calls) (hheader : start.bph + 36 ≤ start.pBegin)
    (hmax : start.pstrBegin < start.bph + 2147483648)
    (hversion : load32 start.mem (start.bph + 20) = 0x10) :
    ∃ rc cxt', ftEndTree cxt = some (rc, cxt') ∧ (rc = 0 → ∃ es stop, es.map Prod.fst = calls ∧
      stop ≤ start.pstrBegin ∧ Blob cxt'.mem start.bph start.pBegin stop es) := by
  have hfull (hfull : cxt.overflow = true ∨ cxt.pstr < cxt.p + 4) : ∃ rc cxt',
      ftEndTree cxt = some (rc, cxt') ∧ (rc = 0 → ∃ es stop, es.map Prod.fst = calls ∧
        stop ≤ start.pstrBegin ∧ Blob cxt'.mem start.bph start.pBegin stop es) := by
    obtain ⟨cxt', hend, -⟩ := ftEndTree_full hfull
    exact ⟨_, cxt', hend, fun hrc ↦ absurd hrc (by decide)⟩
  rcases h with hover | ⟨es, table, rfl, hbuilt, hframe⟩
  · exact hfull (.inl hover)
  by_cases hroom : cxt.pstr < cxt.p + 4
  · exact hfull (.inr hroom)
  have hp := hbuilt.p_eq
  have hpstr := hbuilt.pstr_eq
  have hspace := hbuilt.space
  have hbph := hframe.bph
  have hpBegin := hframe.pBegin
  have hpstrBegin := hframe.pstrBegin
  have hend : cxt.pBegin + (encodeAll es ++ be32 ofDtEnd).length = cxt.p + 4 := by
    rw [List.length_append, be32_length]
    omega
  obtain ⟨m, cxt', hfinish, -, hmem, hstruct', hm⟩ := ftEndTree_laid hbuilt.laid (by omega) (by omega)
  refine ⟨_, _, hfinish, fun _ ↦ ⟨relocate (cxt.pstr - cxt.pBegin) es,
    cxt.p + 4 + (packed table).length, map_relocate _ es, ?_, ?_⟩⟩
  · omega
  rw [← hbph, ← hpBegin, hmem]
  generalize align (cxt.p + 4 + (packed table).length - cxt.bph) 16 = sz1
  generalize hpad : List.replicate _ (0 : UInt8) = pad
  have hfar (k : ℕ) (hk : cxt.bph + 16 ≤ k) (hk' : k < cxt.p + 4 + (packed table).length) :
      store (store m (cxt.p + 4 + (packed table).length) pad) (cxt.bph + 4)
        (be32 sz1 ++ (be32 (cxt.pBegin - cxt.bph) ++ be32 (cxt.p + 4 - cxt.bph))) k = m k := by
    rw [store_of_le _ (by simpa using hk), store_of_lt _ _ hk']
  refine blob_of_built hbuilt (by omega) (by omega) hend (by omega)
    (hstruct'.congr fun k hk hk' ↦ hfar k (by omega) ?_) ?_ ?_ ?_ ?_
  · rw [List.length_append, relocate_length, be32_length] at hk'
    omega
  · refine (bytes_congr fun k hk hk' ↦ (hfar k (by omega) hk').trans (hm k (by omega))).trans ?_
    exact bytes_store _ _ _
  · have hload := load32_store_be32 (store m (cxt.p + 4 + (packed table).length) pad) (cxt.bph + 4)
      (cxt.pBegin - cxt.bph) (be32 sz1) (be32 (cxt.p + 4 - cxt.bph))
    rw [Nat.mod_eq_of_lt (by omega)] at hload
    exact (congrArg (cxt.bph + ·) hload).trans (by omega)
  · have hload := load32_store_be32 (store m (cxt.p + 4 + (packed table).length) pad) (cxt.bph + 4)
      (cxt.p + 4 - cxt.bph) (be32 sz1 ++ be32 (cxt.pBegin - cxt.bph)) []
    rw [Nat.mod_eq_of_lt (by omega), List.append_nil, List.append_assoc] at hload
    exact (congrArg (cxt.bph + ·) hload).trans (by omega)
  · rw [← hversion, ← hbph]
    refine load32_congr fun k hk hk' ↦ ?_
    rw [hfar k (by omega) (by omega), hm k (.inl (by omega)), store_of_lt _ _ (by omega),
      store_of_lt _ _ (by omega)]
    exact hframe.mem k (.inl (by omega))

end EndTree

section Opened

variable {m : Mem} {t : Tree} {cxt : FtCxt}

/-- Before the first call: the header and the reserved areas. -/
structure Header (m : Mem) (t : Tree) (cxt : FtCxt) : Prop where
  bph : cxt.bph = t.blob
  maxSize : cxt.maxSize = t.maxSize
  overflow : cxt.overflow = false
  pAnchor : cxt.pAnchor = cxt.pres + 16
  aligned : cxt.pres % 4 = 0
  le_pres : t.blob + 36 ≤ cxt.pres
  version : load32 cxt.mem (t.blob + 20) = 0x10
  mem : ∀ k, k < t.blob ∨ cxt.pAnchor ≤ k → cxt.mem k = m k

theorem header_begin (m : Mem) (t : Tree) : Header m t (ftBegin m t.blob t.maxSize) := by
  have hle : t.blob + 36 ≤ align (t.blob + 36) 8 := by
    rw [align]
    omega
  have hmod : align (t.blob + 36) 8 % 4 = 0 := by
    rw [align]
    omega
  have hlen (n : ℕ) :
      ([ofDtHeader, 0, 0, 0, n, 0x10, 0x10, 0, 0].flatMap be32).length = 36 := rfl
  refine ⟨rfl, rfl, rfl, rfl, hmod, hle, ?_, fun k hk ↦ ?_⟩
  · have hword := load32_store_be32 m t.blob 0x10
      ([ofDtHeader, 0, 0, 0, align (t.blob + 36) 8 - t.blob].flatMap be32)
      ([0x10, 0, 0].flatMap be32)
    refine (load32_congr fun k hk hk' ↦ ?_).trans hword
    exact store_of_lt _ _ (by omega)
  · dsimp only [ftBegin] at hk ⊢
    rcases hk with hk | hk
    · rw [store_of_lt _ _ (by omega), store_of_lt _ _ hk]
    · rw [store_of_le _ (by rw [List.length_replicate]; omega),
        store_of_le _ (by rw [hlen]; omega)]

theorem Header.addRsvmap (h : Header m t cxt) (physaddr size : ℕ) :
    Header m t (ftAddRsvmap cxt physaddr size) := by
  have hlen : (be64 physaddr ++ be64 size).length = 16 := rfl
  have haligned := h.aligned
  have hle := h.le_pres
  have hanchor := h.pAnchor
  refine ⟨h.bph, h.maxSize, h.overflow, rfl, ?_, ?_, ?_, fun k hk ↦ ?_⟩
  · dsimp only [ftAddRsvmap]
    omega
  · dsimp only [ftAddRsvmap]
    omega
  · refine (load32_congr fun k hk hk' ↦ ?_).trans h.version
    dsimp only [ftAddRsvmap]
    rw [store_of_lt _ _ (by omega), store_of_lt _ _ (by omega)]
  · dsimp only [ftAddRsvmap] at hk ⊢
    rcases hk with hk | hk
    · rw [store_of_lt _ _ (by omega), store_of_lt _ _ (by omega), h.mem k (.inl hk)]
    · rw [store_of_le _ (by rw [List.length_replicate]; omega),
        store_of_le _ (by rw [hlen]; omega), h.mem k (.inr (by omega))]

theorem Header.foldl (h : Header m t cxt) (rsvmap : List (ℕ × ℕ)) :
    Header m t (rsvmap.foldl (fun cxt r ↦ ftAddRsvmap cxt r.1 r.2) cxt) := by
  induction rsvmap generalizing cxt with
  | nil => exact h
  | cons r rsvmap ih => exact ih (h.addRsvmap r.1 r.2)

theorem header_beginTree (m : Mem) (t : Tree) :
    ∃ cxt, t.opened m = ftBeginTree cxt ∧ Header m t cxt :=
  ⟨_, rfl, (header_begin m t).foldl t.rsvmap⟩

/-- What the builder may assume of a buffer. -/
structure Tree.Buffer (t : Tree) : Prop where
  aligned : t.blob % 8 = 0
  maxSize : t.maxSize < 2147483648
  space : t.blob + t.maxSize ≤ 4294967296

theorem opened_header (m : Mem) (t : Tree) : (t.opened m).bph = t.blob ∧
    (t.opened m).pstrBegin = t.blob + t.maxSize ∧ t.blob + 36 ≤ (t.opened m).pBegin ∧
    load32 (t.opened m).mem (t.blob + 20) = 0x10 ∧
    ∀ k, k < t.blob ∨ (t.opened m).pBegin ≤ k → (t.opened m).mem k = m k := by
  obtain ⟨cxt, hopened, h⟩ := header_beginTree m t
  have hle := h.le_pres
  have hanchor := h.pAnchor
  rw [hopened]
  refine ⟨h.bph, ?_, ?_, h.version, h.mem⟩
  · dsimp only [ftBeginTree]
    rw [h.bph, h.maxSize]
  · dsimp only [ftBeginTree]
    omega

theorem opened_laid (hspace : t.blob + t.maxSize ≤ 4294967296)
    (hle : (t.opened m).pBegin ≤ t.blob + t.maxSize) : Laid (t.opened m) [] [] := by
  obtain ⟨cxt, hopened, h⟩ := header_beginTree m t
  have haligned := h.aligned
  have hanchor := h.pAnchor
  have hnil : ∀ s ∈ ([] : List CStr), NulFree s := fun s hs ↦ absurd hs List.not_mem_nil
  rw [hopened] at hle ⊢
  refine ⟨h.overflow, ?_, ?_, rfl, ?_, rfl, rfl, rfl, fun e he ↦ absurd he List.not_mem_nil, hnil,
    fun _ _ _ he ↦ absurd he List.not_mem_nil⟩
  · dsimp only [ftBeginTree]
    omega
  · dsimp only [ftBeginTree]
    rw [h.bph, h.maxSize]
    exact hspace
  · dsimp only [ftBeginTree] at hle ⊢
    rw [h.bph, h.maxSize]
    exact hle

theorem opened_rep (ht : Tree.Buffer t) (hle : (t.opened m).pBegin ≤ t.blob + t.maxSize) :
    Rep (t.opened m) (t.opened m) [] := by
  have hlaid := opened_laid ht.space hle
  exact .inr ⟨[], [], rfl, hlaid.built fun e he ↦ absurd he List.not_mem_nil, Frame.refl _⟩

/-- The reserved areas end with a zero word. -/
theorem opened_terminator (m : Mem) (t : Tree) :
    load32 (t.opened m).mem ((t.opened m).pBegin - 4) = 0 := by
  have hfold (rsvmap : List (ℕ × ℕ)) (cxt : FtCxt) (hanchor : cxt.pAnchor = cxt.pres + 16)
      (hzero : bytes cxt.mem cxt.pres 16 = List.replicate 16 0) :
      load32 (ftBeginTree (rsvmap.foldl (fun cxt r ↦ ftAddRsvmap cxt r.1 r.2) cxt)).mem
        ((ftBeginTree (rsvmap.foldl (fun cxt r ↦ ftAddRsvmap cxt r.1 r.2) cxt)).pBegin - 4) = 0 := by
    induction rsvmap generalizing cxt with
    | nil =>
      dsimp only [List.foldl_nil, ftBeginTree]
      rw [hanchor]
      exact load32_at (a := List.replicate 12 0) (v := 0) (b := []) hzero
    | cons r rsvmap ih => exact ih _ rfl (bytes_store _ _ _)
  exact hfold t.rsvmap _ rfl (bytes_store _ _ _)

/-- There is no room for a word. -/
def Full (cxt : FtCxt) : Prop :=
  cxt.overflow = true ∨ cxt.pstr < cxt.p ∧ cxt.pstrBegin ≤ cxt.pstr

theorem Full.putWord (h : Full cxt) (v : ℕ) : (ftPutWord cxt v).overflow = true := by
  rcases h with hover | ⟨hlt, -⟩
  · rw [ftPutWord_overflow hover, hover]
  · rw [ftPutWord]
    split_ifs with hover
    · exact hover
    · rfl
    · omega

theorem Full.call (h : Full cxt) (call : FtCall) :
    ∃ cxt', cxt.call call = some cxt' ∧ cxt'.overflow = true := by
  cases call with
  | beginNode name =>
    have hword := h.putWord ofDtBeginNode
    refine ⟨_, rfl, ?_⟩
    rw [ftBeginNode, ftPutBin, if_pos hword, hword]
  | endNode => exact ⟨_, rfl, h.putWord ofDtEndNode⟩
  | nop => exact ⟨_, rfl, h.putWord ofDtNop⟩
  | prop name data =>
    rcases h with hover | ⟨hlt, hle⟩
    · exact ⟨cxt, call_overflow hover _, hover⟩
    · rw [FtCxt.call, ftProp, lookupString, Nat.sub_eq_zero_of_le hle]
      split_ifs with hover
      · exact ⟨cxt, rfl, hover⟩
      · dsimp only [lookupLoop, Option.bind_eq_bind, Option.bind_some]
        rw [if_pos (by omega)]
        exact ⟨_, rfl, rfl⟩

theorem Full.endTree (h : Full cxt) {rc : ℤ} {cxt' : FtCxt}
    (hend : ftEndTree cxt = some (rc, cxt')) : rc ≠ 0 := by
  rw [ftEndTree] at hend
  dsimp only at hend
  rw [if_pos (h.putWord _)] at hend
  obtain ⟨rfl, -⟩ := Prod.mk.inj (Option.some.inj hend)
  decide

theorem opened_full (hlt : ¬ (t.opened m).pBegin ≤ t.blob + t.maxSize) : Full (t.opened m) := by
  obtain ⟨cxt, hopened, h⟩ := header_beginTree m t
  rw [hopened] at hlt ⊢
  dsimp only [ftBeginTree] at hlt
  refine .inr ⟨?_, le_rfl⟩
  dsimp only [ftBeginTree]
  rw [h.bph, h.maxSize]
  omega

/-- After a call the buffer has overflowed or holds what it should. -/
theorem built_rep (ht : Tree.Buffer t) (hnamed : ∀ c ∈ t.calls, Named c) (hne : t.calls ≠ []) :
    ∃ cxt, t.built m = some cxt ∧ Rep (t.opened m) cxt t.calls := by
  by_cases hle : (t.opened m).pBegin ≤ t.blob + t.maxSize
  · exact (opened_rep ht hle).of_calls hnamed
  · obtain ⟨call, calls, hcalls⟩ := List.exists_cons_of_ne_nil hne
    obtain ⟨cxt, hcall, hover⟩ := (opened_full hle).call call
    rw [hcalls] at hnamed ⊢
    have hrep : Rep (t.opened m) cxt [call] := .inl hover
    obtain ⟨cxt', hfold, hrep'⟩ := hrep.of_calls (List.forall_mem_cons.mp hnamed).2
    refine ⟨cxt', ?_, hrep'⟩
    rw [Tree.built, hcalls, List.foldlM_cons, hcall]
    exact hfold

theorem endTree_blob (ht : Tree.Buffer t) {calls : List FtCall} {cxt' : FtCxt}
    (h : Rep (t.opened m) cxt calls) (hend : ftEndTree cxt = some (0, cxt')) :
    ∃ es stop, es.map Prod.fst = calls ∧ stop ≤ t.blob + t.maxSize ∧
      Blob cxt'.mem t.blob (t.opened m).pBegin stop es := by
  obtain ⟨hbph, hpstrBegin, hle, hversion, -⟩ := opened_header m t
  have hmax := ht.maxSize
  rw [← hbph] at hle hversion
  obtain ⟨rc, cxt'', hend', hblob⟩ := ftEndTree_spec h hle (by omega) hversion
  obtain ⟨rfl, rfl⟩ := Prod.mk.inj (Option.some.inj (hend'.symm.trans hend))
  rw [← hpstrBegin, ← hbph]
  exact hblob rfl

theorem finished_blob (ht : Tree.Buffer t) (hnamed : ∀ c ∈ t.calls, Named c)
    (hend : t.finished m = some (0, cxt)) : ∃ es stop, es.map Prod.fst = t.calls ∧
      stop ≤ t.blob + t.maxSize ∧ Blob cxt.mem t.blob (t.opened m).pBegin stop es := by
  have hrep : ∃ cxt', t.built m = some cxt' ∧ (Rep (t.opened m) cxt' t.calls ∨ Full cxt') := by
    by_cases hne : t.calls = []
    · refine ⟨t.opened m, by rw [Tree.built, hne]; rfl, ?_⟩
      rw [hne]
      exact (em _).imp (opened_rep ht) opened_full
    · exact (built_rep ht hnamed hne).imp fun _ h ↦ h.imp_right .inl
  obtain ⟨cxt', hbuilt, hrep⟩ := hrep
  rw [Tree.finished, hbuilt] at hend
  rcases hrep with hrep | hfull
  · exact endTree_blob ht hrep hend
  · exact absurd rfl (hfull.endTree hend)

end Opened

end UBoot.Common.FtBlob
