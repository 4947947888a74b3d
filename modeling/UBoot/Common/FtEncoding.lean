import Mathlib.Algebra.GroupWithZero.Nat
import UBoot.Common.FtBuild

namespace UBoot.Common.FtEncoding

open Lib.CString Lib.Memory Lib.StringTable FtBuild

section Align

variable {p : ℕ} (n : ℕ)

theorem align_mod : align n 4 % 4 = 0 := Nat.mul_mod_left _ _

theorem align_add (hp : p % 4 = 0) : align (p + n) 4 = p + align n 4 := by
  simp only [align]
  omega

def padded (data : List UInt8) : List UInt8 :=
  data ++ List.replicate ((4 - data.length % 4) % 4) 0

theorem padded_length (data : List UInt8) : (padded data).length = align data.length 4 := by
  rw [padded, List.length_append, List.length_replicate, align]
  omega

end Align

/-- What a call leaves in the structure, with the offset of the name of a property. -/
def encode (off : ℕ) : FtCall → List UInt8
  | .beginNode name => be32 ofDtBeginNode ++ padded (name ++ [0])
  | .endNode => be32 ofDtEndNode
  | .nop => be32 ofDtNop
  | .prop _ data => be32 ofDtProp ++ (be32 data.length ++ (be32 off ++ padded data))

def encodeAll (es : List (FtCall × ℕ)) : List UInt8 := es.flatMap fun e ↦ encode e.2 e.1

/-- The bytes a call takes. -/
def size : FtCall → ℕ
  | .beginNode name => 4 + align (name.length + 1) 4
  | .endNode => 4
  | .nop => 4
  | .prop _ data => 12 + align data.length 4

/-- The names of nodes and properties. -/
def Named : FtCall → Prop
  | .beginNode name => NulFree name ∧ slash ∉ name
  | .endNode => True
  | .nop => True
  | .prop name _ => NulFree name ∧ slash ∉ name

/-- The names are C strings. -/
def Terminated : FtCall → Prop
  | .beginNode name => NulFree name
  | .endNode => True
  | .nop => True
  | .prop name _ => NulFree name

theorem Named.terminated {call : FtCall} (h : Named call) : Terminated call := by
  cases call with
  | beginNode name => exact h.1
  | endNode => exact trivial
  | nop => exact trivial
  | prop name data => exact h.1

theorem encode_length (off : ℕ) (call : FtCall) : (encode off call).length = size call := by
  cases call with
  | beginNode name =>
    rw [encode, List.length_append, padded_length, be32_length, List.length_append]
    rfl
  | endNode => rfl
  | nop => rfl
  | prop name data =>
    rw [encode, List.length_append, List.length_append, List.length_append, padded_length,
      be32_length, be32_length, be32_length, size]
    omega

theorem size_mod (call : FtCall) : size call % 4 = 0 := by
  cases call with
  | beginNode name =>
    have h := align_mod (name.length + 1)
    rw [size]
    omega
  | endNode => rfl
  | nop => rfl
  | prop name data =>
    have h := align_mod data.length
    rw [size]
    omega

theorem four_le_size (call : FtCall) : 4 ≤ size call := by
  cases call with
  | beginNode name => exact Nat.le_add_right _ _
  | endNode => exact le_rfl
  | nop => exact le_rfl
  | prop name data =>
    rw [size]
    omega

theorem encodeAll_cons (call : FtCall) (off : ℕ) (es : List (FtCall × ℕ)) :
    encodeAll ((call, off) :: es) = encode off call ++ encodeAll es :=
  List.flatMap_cons

theorem encodeAll_concat (es : List (FtCall × ℕ)) (call : FtCall) (off : ℕ) :
    encodeAll (es ++ [(call, off)]) = encodeAll es ++ encode off call := by
  rw [encodeAll, List.flatMap_append, List.flatMap_singleton, encodeAll]

theorem encodeAll_mod (es : List (FtCall × ℕ)) : (encodeAll es).length % 4 = 0 := by
  induction es with
  | nil => rfl
  | cons e es ih =>
    have h := size_mod e.1
    rw [encodeAll_cons e.1 e.2, List.length_append, encode_length]
    omega

theorem encodeAll_length (es : List (FtCall × ℕ)) :
    (encodeAll es).length = ((es.map Prod.fst).map size).sum := by
  induction es with
  | nil => rfl
  | cons e es ih =>
    rw [encodeAll_cons e.1 e.2, List.length_append, encode_length, ih, List.map_cons, List.map_cons,
      List.sum_cons]

theorem length_le_encodeAll (es : List (FtCall × ℕ)) : 4 * es.length ≤ (encodeAll es).length := by
  induction es with
  | nil => exact le_rfl
  | cons e es ih =>
    have h := four_le_size e.1
    rw [encodeAll_cons e.1 e.2, List.length_append, encode_length, List.length_cons]
    omega

/-- The structure of a finished tree stands at `p`. -/
structure StructAt (m : Mem) (p : ℕ) (es : List (FtCall × ℕ)) : Prop where
  bytes_eq : bytes m p (encodeAll es ++ be32 ofDtEnd).length = encodeAll es ++ be32 ofDtEnd
  aligned : p % 4 = 0
  space : p + (encodeAll es ++ be32 ofDtEnd).length ≤ 4294967296

namespace StructAt

variable {m : Mem} {p off : ℕ} {call : FtCall} {es : List (FtCall × ℕ)}

theorem of_nil (h : StructAt m p []) : load32 m p = ofDtEnd :=
  (load32_head (b := []) h.bytes_eq).1

theorem head (h : StructAt m p ((call, off) :: es)) :
    bytes m p (encode off call).length = encode off call := by
  have hbytes := h.bytes_eq
  rw [encodeAll_cons, List.append_assoc] at hbytes
  exact (bytes_eq_append hbytes).1

theorem tail (h : StructAt m p ((call, off) :: es)) : StructAt m (p + size call) es := by
  have hbytes := h.bytes_eq
  have hspace := h.space
  have haligned := h.aligned
  have hsize := size_mod call
  rw [encodeAll_cons, List.append_assoc] at hbytes hspace
  rw [List.length_append, encode_length] at hspace
  have hrest := (bytes_eq_append hbytes).2
  rw [encode_length] at hrest
  exact ⟨hrest, by omega, by omega⟩

theorem head_le (h : StructAt m p ((call, off) :: es)) : p + size call + 4 ≤ 4294967296 := by
  have hspace := h.space
  rw [encodeAll_cons, List.length_append, List.length_append, encode_length, be32_length] at hspace
  omega

theorem cons (hhead : bytes m p (encode off call).length = encode off call)
    (htail : StructAt m (p + size call) es) (hp : p % 4 = 0) : StructAt m p ((call, off) :: es) := by
  have hspace := htail.space
  refine ⟨?_, hp, ?_⟩
  · rw [encodeAll_cons, List.append_assoc, List.length_append, bytes_append, hhead, encode_length,
      htail.bytes_eq]
  · rw [encodeAll_cons, List.append_assoc, List.length_append, encode_length]
    omega

theorem congr {m' : Mem} (h : StructAt m p es)
    (hm : ∀ k, p ≤ k → k < p + (encodeAll es ++ be32 ofDtEnd).length → m' k = m k) :
    StructAt m' p es :=
  ⟨(bytes_congr hm).trans h.bytes_eq, h.aligned, h.space⟩

theorem length_lt (h : StructAt m p es) : es.length < 4294967296 - p := by
  have hspace := h.space
  have hlen := length_le_encodeAll es
  rw [List.length_append, be32_length] at hspace
  omega

theorem beginNode {name : CStr} (h : StructAt m p ((.beginNode name, off) :: es))
    (hname : NulFree name) :
    load32 m p = ofDtBeginNode ∧ stringAt m (p + 4) = some name ∧
      strlenAt m (p + 4) = some name.length ∧
      align (p + 4 + name.length + 1) 4 = p + size (.beginNode name) := by
  have hle := h.head_le
  have haligned := h.aligned
  obtain ⟨htag, hrest⟩ := load32_head h.head
  rw [padded] at hrest
  have hstring := (bytes_eq_append hrest).1
  have hlt : p + 4 + name.length < 4294967296 := by
    rw [size, align] at hle
    omega
  refine ⟨htag, stringAt_of_bytes hname hstring hlt, strlenAt_of_bytes hname hstring hlt, ?_⟩
  rw [Nat.add_assoc, align_add _ (by omega), size, Nat.add_assoc]

theorem endNode (h : StructAt m p ((.endNode, off) :: es)) : load32 m p = ofDtEndNode :=
  (load32_head (b := []) h.head).1

theorem nop (h : StructAt m p ((.nop, off) :: es)) : load32 m p = ofDtNop :=
  (load32_head (b := []) h.head).1

theorem prop {name : CStr} {data : List UInt8} (h : StructAt m p ((.prop name data, off) :: es)) :
    load32 m p = ofDtProp ∧ load32 m (p + 4) = data.length ∧
      load32 m (p + 8) = off % 4294967296 ∧ bytes m (p + 12) data.length = data ∧
      align (p + 12 + data.length) 4 = p + size (.prop name data) := by
  have hle := h.head_le
  have haligned := h.aligned
  obtain ⟨htag, hsz⟩ := load32_head h.head
  obtain ⟨hsz, hoff⟩ := load32_head hsz
  obtain ⟨hoff, hdata⟩ := load32_head hoff
  rw [padded] at hdata
  have hlt : data.length < 4294967296 := by
    rw [size, align] at hle
    omega
  rw [Nat.mod_eq_of_lt hlt] at hsz
  refine ⟨htag, hsz, hoff, (bytes_eq_append hdata).1, ?_⟩
  rw [align_add _ (by omega), size, Nat.add_assoc]

end StructAt

section Puts

variable {cxt cxt' cxt'' : FtCxt} {bs cs : List UInt8}

/-- Unless there is no room for them, `bs` are put down. -/
def Puts (cxt cxt' : FtCxt) (bs : List UInt8) : Prop :=
  cxt'.overflow = true ∨ cxt.overflow = false ∧ cxt.p + bs.length ≤ cxt.pstr ∧
    cxt' = { cxt with mem := store cxt.mem cxt.p bs, p := cxt.p + bs.length }

theorem Puts.append (h : Puts cxt cxt' bs) (h' : Puts cxt' cxt'' cs) :
    Puts cxt cxt'' (bs ++ cs) := by
  rcases h' with hover | ⟨hover, hroom, rfl⟩
  · exact .inl hover
  · rcases h with hover' | ⟨hover', hroom', rfl⟩
    · exact absurd (hover.symm.trans hover') (by decide)
    · dsimp only at hroom
      refine .inr ⟨hover', by rw [List.length_append]; omega, ?_⟩
      dsimp only
      rw [store_store, List.length_append, Nat.add_assoc]

theorem puts_word (cxt : FtCxt) (v : ℕ) : Puts cxt (ftPutWord cxt v) (be32 v) := by
  rw [ftPutWord]
  split_ifs with hover hroom
  · exact .inl hover
  · exact .inl rfl
  · exact .inr ⟨Bool.eq_false_iff.mpr hover, not_lt.mp hroom, rfl⟩

theorem ftPutWord_p_mod (cxt : FtCxt) (v : ℕ) : (ftPutWord cxt v).p % 4 = cxt.p % 4 := by
  rw [ftPutWord]
  split_ifs
  · rfl
  · rfl
  · exact Nat.add_mod_right cxt.p 4

theorem puts_bin (data : List UInt8) (hp : cxt.p % 4 = 0) :
    Puts cxt (ftPutBin cxt data) (padded data) := by
  have hend : align (cxt.p + data.length) 4 = cxt.p + (padded data).length := by
    rw [align_add _ hp, padded_length]
  rw [ftPutBin]
  dsimp only
  rw [hend]
  by_cases hover : cxt.overflow = true
  · rw [if_pos hover]
    exact .inl hover
  · rw [if_neg hover]
    by_cases hroom : cxt.pstr < cxt.p + (padded data).length
    · rw [if_pos hroom]
      exact .inl rfl
    · rw [if_neg hroom]
      refine .inr ⟨Bool.eq_false_iff.mpr hover, not_lt.mp hroom, ?_⟩
      by_cases hmod : data.length % 4 = 0
      · have hpad : padded data = data := by
          rw [padded, hmod]
          exact List.append_nil data
        rw [if_neg (not_not.mpr hmod), hpad]
      · have hpad : (4 - data.length % 4) % 4 = 4 - data.length % 4 := by omega
        rw [if_pos hmod, store_store, padded, hpad]

/-- With room for them, `bs` are put down. -/
def Fills (cxt cxt' : FtCxt) (bs : List UInt8) : Prop :=
  cxt.overflow = false → cxt.p + bs.length ≤ cxt.pstr →
    cxt' = { cxt with mem := store cxt.mem cxt.p bs, p := cxt.p + bs.length }

theorem Fills.append (h : Fills cxt cxt' bs) (h' : Fills cxt' cxt'' cs) :
    Fills cxt cxt'' (bs ++ cs) := by
  intro hover hroom
  rw [List.length_append, ← Nat.add_assoc] at hroom
  have hfirst := h hover (by omega)
  subst hfirst
  have hsecond := h' hover hroom
  rw [hsecond]
  dsimp only
  rw [store_store, List.length_append, Nat.add_assoc]

theorem fills_of_puts (h : Puts cxt cxt' bs)
    (h' : cxt.overflow = false → cxt.p + bs.length ≤ cxt.pstr → cxt'.overflow = false) :
    Fills cxt cxt' bs := by
  intro hover hroom
  rcases h with hfull | ⟨-, -, heq⟩
  · exact absurd (h' hover hroom) (by rw [hfull]; decide)
  · exact heq

theorem fills_word (cxt : FtCxt) (v : ℕ) : Fills cxt (ftPutWord cxt v) (be32 v) := by
  refine fills_of_puts (puts_word cxt v) fun hover hroom ↦ ?_
  have hroom' : ¬ cxt.pstr < cxt.p + 4 := not_lt.mpr hroom
  rw [ftPutWord, if_neg (by rw [hover]; decide), if_neg hroom']
  exact hover

theorem fills_bin (data : List UInt8) (hp : cxt.p % 4 = 0) :
    Fills cxt (ftPutBin cxt data) (padded data) := by
  refine fills_of_puts (puts_bin data hp) fun hover hroom ↦ ?_
  have hroom' : ¬ cxt.pstr < align (cxt.p + data.length) 4 := by
    rw [align_add _ hp, ← padded_length]
    exact not_lt.mpr hroom
  rw [ftPutBin, if_neg (by rw [hover]; decide), if_neg hroom']
  exact hover

theorem Puts.overflow_iff (h : Puts cxt cxt' bs) (h' : Fills cxt cxt' bs)
    (hover : cxt.overflow = false) :
    cxt'.overflow = false ↔ cxt.p + bs.length ≤ cxt.pstr := by
  constructor
  · intro hover'
    rcases h with hfull | ⟨-, hroom, -⟩
    · exact absurd hover' (by rw [hfull]; decide)
    · exact hroom
  · intro hroom
    rw [h' hover hroom]
    exact hover

theorem puts_beginNode (name : CStr) (hp : cxt.p % 4 = 0) (off : ℕ) :
    Puts cxt (ftBeginNode cxt name) (encode off (.beginNode name)) :=
  (puts_word cxt _).append (puts_bin _ ((ftPutWord_p_mod _ _).trans hp))

theorem puts_prop (name : CStr) (data : List UInt8) (hp : cxt.p % 4 = 0) (off : ℕ) :
    Puts cxt (putProp cxt off data) (encode off (.prop name data)) := by
  refine (puts_word _ _).append ((puts_word _ _).append ((puts_word _ _).append (puts_bin _ ?_)))
  rw [ftPutWord_p_mod, ftPutWord_p_mod, ftPutWord_p_mod, hp]

theorem fills_beginNode (name : CStr) (hp : cxt.p % 4 = 0) (off : ℕ) :
    Fills cxt (ftBeginNode cxt name) (encode off (.beginNode name)) :=
  (fills_word cxt _).append (fills_bin _ ((ftPutWord_p_mod _ _).trans hp))

theorem fills_prop (name : CStr) (data : List UInt8) (hp : cxt.p % 4 = 0) (off : ℕ) :
    Fills cxt (putProp cxt off data) (encode off (.prop name data)) := by
  refine (fills_word _ _).append ((fills_word _ _).append ((fills_word _ _).append (fills_bin _ ?_)))
  rw [ftPutWord_p_mod, ftPutWord_p_mod, ftPutWord_p_mod, hp]

end Puts

/-- What has been put so far under any names: the structure from `pBegin` on, the table of names up to
`pstrBegin`; a property's name stands in the table where its offset says. -/
structure Laid (cxt : FtCxt) (es : List (FtCall × ℕ)) (table : List CStr) : Prop where
  overflow : cxt.overflow = false
  aligned : cxt.pBegin % 4 = 0
  space : cxt.pstrBegin ≤ 4294967296
  p_eq : cxt.p = cxt.pBegin + (encodeAll es).length
  p_le : cxt.p ≤ cxt.pstr
  struct : bytes cxt.mem cxt.pBegin (encodeAll es).length = encodeAll es
  pstr_eq : cxt.pstr + (packed table).length = cxt.pstrBegin
  strings : bytes cxt.mem cxt.pstr (packed table).length = packed table
  terminated : ∀ e ∈ es, Terminated e.1
  nulFree : ∀ s ∈ table, NulFree s
  offsets : ∀ name data off, (.prop name data, off) ∈ es → ∃ rest, name :: rest <:+ table ∧
    cxt.pBegin + off + (packed (name :: rest)).length = cxt.pstrBegin

/-- The same, with the names of nodes and properties. -/
structure Built (cxt : FtCxt) (es : List (FtCall × ℕ)) (table : List CStr) : Prop where
  overflow : cxt.overflow = false
  aligned : cxt.pBegin % 4 = 0
  space : cxt.pstrBegin ≤ 4294967296
  p_eq : cxt.p = cxt.pBegin + (encodeAll es).length
  p_le : cxt.p ≤ cxt.pstr
  struct : bytes cxt.mem cxt.pBegin (encodeAll es).length = encodeAll es
  pstr_eq : cxt.pstr + (packed table).length = cxt.pstrBegin
  strings : bytes cxt.mem cxt.pstr (packed table).length = packed table
  named : ∀ e ∈ es, Named e.1
  nulFree : ∀ s ∈ table, NulFree s
  offsets : ∀ name data off, (.prop name data, off) ∈ es → ∃ rest, name :: rest <:+ table ∧
    cxt.pBegin + off + (packed (name :: rest)).length = cxt.pstrBegin

/-- Only the memory between `pBegin` and `pstrBegin` is written. -/
structure Frame (cxt cxt' : FtCxt) : Prop where
  bph : cxt'.bph = cxt.bph
  pBegin : cxt'.pBegin = cxt.pBegin
  pstrBegin : cxt'.pstrBegin = cxt.pstrBegin
  mem : ∀ k, k < cxt.pBegin ∨ cxt.pstrBegin ≤ k → cxt'.mem k = cxt.mem k

theorem Frame.refl (cxt : FtCxt) : Frame cxt cxt := ⟨rfl, rfl, rfl, fun _ _ ↦ rfl⟩

theorem Frame.trans {a b c : FtCxt} (h : Frame a b) (h' : Frame b c) : Frame a c where
  bph := h'.bph.trans h.bph
  pBegin := h'.pBegin.trans h.pBegin
  pstrBegin := h'.pstrBegin.trans h.pstrBegin
  mem k hk := by
    have hk' : k < b.pBegin ∨ b.pstrBegin ≤ k := by
      rw [h.pBegin, h.pstrBegin]
      exact hk
    exact (h'.mem k hk').trans (h.mem k hk)

theorem Frame.move {a b : FtCxt} (h : Frame a b) (p : ℕ) : Frame a { b with p := p } :=
  ⟨h.bph, h.pBegin, h.pstrBegin, h.mem⟩

section Calls

variable {cxt cxt' : FtCxt} {es : List (FtCall × ℕ)} {table : List CStr} {call : FtCall} {off : ℕ}

theorem Laid.p_mod (h : Laid cxt es table) : cxt.p % 4 = 0 := by
  have hmod := encodeAll_mod es
  have haligned := h.aligned
  rw [h.p_eq]
  omega

theorem Laid.put (h : Laid cxt es table) (hputs : Puts cxt cxt' (encode off call))
    (hcall : Terminated call) (hoff : ∀ name data, call = .prop name data → ∃ rest,
      name :: rest <:+ table ∧ cxt.pBegin + off + (packed (name :: rest)).length = cxt.pstrBegin) :
    cxt'.overflow = true ∨ Laid cxt' (es ++ [(call, off)]) table ∧ Frame cxt cxt' := by
  rcases hputs with hover | ⟨hover, hroom, rfl⟩
  · exact .inl hover
  have hp := h.p_eq
  have hpstr := h.pstr_eq
  refine .inr ⟨?_, rfl, rfl, rfl, fun k hk ↦ ?_⟩
  · refine ⟨hover, h.aligned, h.space, ?_, hroom, ?_, h.pstr_eq, ?_, ?_, h.nulFree, ?_⟩
    · dsimp only
      rw [encodeAll_concat, List.length_append, hp, Nat.add_assoc]
    · dsimp only
      rw [encodeAll_concat, List.length_append, bytes_append, ← hp, bytes_store,
        bytes_store_of_lt _ _ hp.ge, h.struct]
    · dsimp only
      rw [bytes_store_of_le _ hroom, h.strings]
    · intro e he
      rcases List.mem_append.mp he with he | he
      · exact h.terminated e he
      · rw [List.mem_singleton.mp he]
        exact hcall
    · intro name data off' he
      rcases List.mem_append.mp he with he | he
      · exact h.offsets name data off' he
      · obtain ⟨hname, rfl⟩ := Prod.mk.inj (List.mem_singleton.mp he)
        exact hoff name data hname.symm
  · dsimp only
    rcases hk with hk | hk
    · exact store_of_lt _ _ (by omega)
    · exact store_of_le _ (by omega)

/-- A new name in front of the table. -/
theorem Laid.intern (h : Laid cxt es table) {name : CStr} (hname : NulFree name)
    (hroom : cxt.p + (name.length + 1) ≤ cxt.pstr) (hle : cxt.pBegin ≤ cxt.p) :
    Laid { cxt with
        pstr := cxt.pstr - (name.length + 1)
        mem := store cxt.mem (cxt.pstr - (name.length + 1)) (name ++ [0]) } es (name :: table) ∧
      Frame cxt { cxt with
        pstr := cxt.pstr - (name.length + 1)
        mem := store cxt.mem (cxt.pstr - (name.length + 1)) (name ++ [0]) } := by
  have hlen : (name ++ [0]).length = name.length + 1 := List.length_append
  have hp := h.p_eq
  have hpstr := h.pstr_eq
  refine ⟨?_, rfl, rfl, rfl, fun k hk ↦ ?_⟩
  · refine ⟨h.overflow, h.aligned, h.space, hp, ?_, ?_, ?_, ?_, h.terminated, ?_, ?_⟩
    · dsimp only
      omega
    · dsimp only
      rw [bytes_store_of_lt _ _ (by omega), h.struct]
    · dsimp only
      rw [packed_cons_length]
      omega
    · dsimp only
      rw [packed_cons, List.length_append, bytes_append, bytes_store, hlen,
        Nat.sub_add_cancel (by omega), bytes_store_of_le _ (by omega), h.strings]
    · exact List.forall_mem_cons.mpr ⟨hname, h.nulFree⟩
    · intro name' data off he
      obtain ⟨rest, hsuffix, hat⟩ := h.offsets name' data off he
      exact ⟨rest, hsuffix.trans (List.suffix_cons _ _), hat⟩
  · dsimp only
    rcases hk with hk | hk
    · exact store_of_lt _ _ (by omega)
    · exact store_of_le _ (by omega)

theorem lookupLoop_spec (cxt : FtCxt) (name : CStr) {table : List CStr} {fuel p : ℕ}
    (hstrings : bytes cxt.mem p (packed table).length = packed table)
    (hend : p + (packed table).length = cxt.pstrBegin) (hspace : cxt.pstrBegin ≤ 4294967296)
    (hbegin : cxt.pBegin ≤ p) (hfree : ∀ s ∈ table, NulFree s)
    (hfuel : (packed table).length ≤ fuel) :
    ∃ r, lookupLoop cxt name fuel p = some r ∧ (r = none → name ∉ table) ∧
      ∀ off ∈ r, ∃ rest, name :: rest <:+ table ∧
        cxt.pBegin + off + (packed (name :: rest)).length = cxt.pstrBegin := by
  have hnone (table : List CStr) : ∀ off ∈ (none : Option ℕ), ∃ rest, name :: rest <:+ table ∧
      cxt.pBegin + off + (packed (name :: rest)).length = cxt.pstrBegin :=
    fun off h ↦ absurd h (Option.not_mem_none off)
  induction fuel generalizing p table with
  | zero =>
    refine ⟨none, rfl, fun _ ↦ ?_, hnone table⟩
    cases table with
    | nil => exact List.not_mem_nil
    | cons s table =>
      rw [packed_cons_length] at hfuel
      omega
  | succ fuel ih =>
    rw [lookupLoop]
    cases table with
    | nil =>
      rw [if_neg (by rw [← hend]; exact lt_irrefl p)]
      exact ⟨none, rfl, fun _ ↦ List.not_mem_nil, hnone []⟩
    | cons s table =>
      have hlen := packed_cons_length s table
      obtain ⟨hs, hrest⟩ := List.forall_mem_cons.mp hfree
      rw [packed_cons] at hstrings
      obtain ⟨hhead, htail⟩ := bytes_eq_append hstrings
      rw [if_pos (by omega), stringAt_of_bytes hs hhead (by omega)]
      dsimp only [Option.bind_eq_bind, Option.bind_some]
      split_ifs with hname
      · subst hname
        refine ⟨_, rfl, fun h ↦ absurd h (Option.some_ne_none _), fun off hoff ↦
          ⟨table, List.suffix_rfl, ?_⟩⟩
        cases hoff
        omega
      · have hlen' : (s ++ [0]).length = s.length + 1 := List.length_append
        rw [hlen'] at htail
        obtain ⟨r, hr, hmem, hoff⟩ := ih htail (by omega) (by omega) hrest (by omega)
        refine ⟨r, hr, fun h ↦ ?_, fun off h ↦ ?_⟩
        · rw [List.mem_cons, not_or]
          exact ⟨Ne.symm hname, hmem h⟩
        obtain ⟨rest, hsuffix, hat⟩ := hoff off h
        exact ⟨rest, hsuffix.trans (List.suffix_cons _ _), hat⟩

/-- The table with a name. -/
def intern (table : List CStr) (name : CStr) : List CStr :=
  if name ∈ table then table else name :: table

/-- A property is put down when the structure and the table have room for it. -/
theorem ftProp_laid (h : Laid cxt es table) {name : CStr} (data : List UInt8)
    (hname : NulFree name) :
    ∃ cxt', ftProp cxt name data = some cxt' ∧
      (cxt'.overflow = false ↔
        cxt.p + size (.prop name data) + (packed (intern table name)).length ≤ cxt.pstrBegin) ∧
      (cxt'.overflow = true ∨
        ∃ off, Laid cxt' (es ++ [(.prop name data, off)]) (intern table name) ∧ Frame cxt cxt') := by
  have hp := h.p_eq
  have hle := h.p_le
  have hpstr := h.pstr_eq
  have hfuel : (packed table).length ≤ cxt.pstrBegin - cxt.pstr := by omega
  obtain ⟨r, hr, hmem, hoff⟩ := lookupLoop_spec cxt name h.strings h.pstr_eq h.space (by omega)
    h.nulFree hfuel
  have hover : ¬ cxt.overflow = true := by
    rw [h.overflow]
    decide
  rw [ftProp, if_neg hover, lookupString, hr]
  dsimp only [Option.bind_eq_bind, Option.bind_some]
  cases r with
  | some off =>
    obtain ⟨rest, hsuffix, hat⟩ := hoff off rfl
    have hin : intern table name = table := if_pos (hsuffix.subset List.mem_cons_self)
    have hputs := puts_prop name data h.p_mod off
    rw [hin]
    refine ⟨_, rfl, ?_, (h.put hputs hname fun name' data' heq ↦ ?_).imp_right fun h' ↦ ⟨off, h'⟩⟩
    · rw [hputs.overflow_iff (fills_prop name data h.p_mod off) h.overflow, encode_length]
      omega
    · cases heq
      exact ⟨rest, hsuffix, hat⟩
  | none =>
    have hin : intern table name = name :: table := if_neg (hmem rfl)
    have hlen := packed_cons_length name table
    have hsize : 12 + data.length ≤ size (.prop name data) := by
      rw [size, align]
      omega
    rw [hin]
    dsimp only
    split_ifs with hroom
    · refine ⟨_, rfl, iff_of_false (show ¬ true = false by decide) ?_, .inl rfl⟩
      omega
    · obtain ⟨hnew, hframe⟩ := h.intern hname (by omega) (by omega)
      have hputs := puts_prop name data hnew.p_mod (cxt.pstr - (name.length + 1) - cxt.pBegin)
      refine ⟨_, rfl, ?_, (hnew.put hputs hname fun name' data' heq ↦ ?_).imp_right fun h' ↦
        ⟨_, h'.1, hframe.trans h'.2⟩⟩
      · rw [hputs.overflow_iff (fills_prop name data hnew.p_mod _) hnew.overflow, encode_length]
        dsimp only
        omega
      · cases heq
        have hlen := hnew.pstr_eq
        dsimp only at hlen ⊢
        refine ⟨table, List.suffix_rfl, ?_⟩
        omega

theorem Built.laid (h : Built cxt es table) : Laid cxt es table where
  overflow := h.overflow
  aligned := h.aligned
  space := h.space
  p_eq := h.p_eq
  p_le := h.p_le
  struct := h.struct
  pstr_eq := h.pstr_eq
  strings := h.strings
  terminated e he := (h.named e he).terminated
  nulFree := h.nulFree
  offsets := h.offsets

theorem Laid.built (h : Laid cxt es table) (hnamed : ∀ e ∈ es, Named e.1) : Built cxt es table where
  overflow := h.overflow
  aligned := h.aligned
  space := h.space
  p_eq := h.p_eq
  p_le := h.p_le
  struct := h.struct
  pstr_eq := h.pstr_eq
  strings := h.strings
  named := hnamed
  nulFree := h.nulFree
  offsets := h.offsets

theorem Built.concat_named (h : Built cxt es table) (hcall : Named call) (off : ℕ) :
    ∀ e ∈ es ++ [(call, off)], Named e.1 :=
  List.forall_mem_append.mpr ⟨h.named, List.forall_mem_singleton.mpr hcall⟩

theorem Built.p_mod (h : Built cxt es table) : cxt.p % 4 = 0 := h.laid.p_mod

theorem Built.put (h : Built cxt es table) (hputs : Puts cxt cxt' (encode off call))
    (hcall : Named call) (hoff : ∀ name data, call = .prop name data → ∃ rest,
      name :: rest <:+ table ∧ cxt.pBegin + off + (packed (name :: rest)).length = cxt.pstrBegin) :
    cxt'.overflow = true ∨ Built cxt' (es ++ [(call, off)]) table ∧ Frame cxt cxt' := by
  refine (h.laid.put hputs hcall.terminated hoff).imp_right ?_
  rintro ⟨hlaid, hframe⟩
  exact ⟨hlaid.built (h.concat_named hcall off), hframe⟩

theorem ftProp_built (h : Built cxt es table) {name : CStr} (data : List UInt8)
    (hname : NulFree name ∧ slash ∉ name) :
    ∃ cxt', ftProp cxt name data = some cxt' ∧ (cxt'.overflow = true ∨
      ∃ off table', Built cxt' (es ++ [(.prop name data, off)]) table' ∧ Frame cxt cxt') := by
  obtain ⟨cxt', hprop, -, hlaid⟩ := ftProp_laid h.laid data hname.1
  refine ⟨cxt', hprop, hlaid.imp_right ?_⟩
  rintro ⟨off, hlaid, hframe⟩
  have hnamed : Named (.prop name data) := hname
  exact ⟨off, _, hlaid.built (h.concat_named hnamed off), hframe⟩

/-- From `start` on the calls have been made, unless there was no room. -/
def Rep (start cxt : FtCxt) (calls : List FtCall) : Prop :=
  cxt.overflow = true ∨
    ∃ es table, es.map Prod.fst = calls ∧ Built cxt es table ∧ Frame start cxt

variable {start : FtCxt} {calls : List FtCall}

theorem ftPutWord_overflow (h : cxt.overflow = true) (v : ℕ) : ftPutWord cxt v = cxt := by
  rw [ftPutWord, if_pos h]

theorem call_overflow (h : cxt.overflow = true) (call : FtCall) : cxt.call call = some cxt := by
  cases call with
  | beginNode name => rw [FtCxt.call, ftBeginNode, ftPutWord_overflow h, ftPutBin, if_pos h]
  | endNode => rw [FtCxt.call, ftEndNode, ftPutWord_overflow h]
  | nop => rw [FtCxt.call, ftNop, ftPutWord_overflow h]
  | prop name data => rw [FtCxt.call, ftProp, if_pos h]

theorem Rep.of_put (h : Built cxt es table) (hframe : Frame start cxt) (hmap : es.map Prod.fst = calls)
    (hputs : Puts cxt cxt' (encode 0 call)) (hcall : Named call)
    (hne : ∀ name data, call ≠ .prop name data) : Rep start cxt' (calls ++ [call]) := by
  have hput := h.put hputs hcall fun name data heq ↦ absurd heq (hne name data)
  refine hput.imp_right fun h' ↦ ⟨_, table, ?_, h'.1, hframe.trans h'.2⟩
  rw [List.map_append, hmap]
  rfl

theorem Rep.of_call (h : Rep start cxt calls) (hcall : Named call) :
    ∃ cxt', cxt.call call = some cxt' ∧ Rep start cxt' (calls ++ [call]) := by
  rcases h with hover | ⟨es, table, hmap, hbuilt, hframe⟩
  · exact ⟨cxt, call_overflow hover call, .inl hover⟩
  cases call with
  | beginNode name =>
    have hputs := puts_beginNode name hbuilt.p_mod 0
    exact ⟨_, rfl, .of_put hbuilt hframe hmap hputs hcall (fun _ _ h ↦ by cases h)⟩
  | endNode =>
    exact ⟨_, rfl, .of_put hbuilt hframe hmap (puts_word _ _) hcall (fun _ _ h ↦ by cases h)⟩
  | nop =>
    exact ⟨_, rfl, .of_put hbuilt hframe hmap (puts_word _ _) hcall (fun _ _ h ↦ by cases h)⟩
  | prop name data =>
    obtain ⟨cxt', hprop, hover | ⟨off, table', hbuilt', hframe'⟩⟩ := ftProp_built hbuilt data hcall
    · exact ⟨cxt', hprop, .inl hover⟩
    · refine ⟨cxt', hprop, .inr ⟨_, table', ?_, hbuilt', hframe.trans hframe'⟩⟩
      rw [List.map_append, hmap]
      rfl

theorem Rep.of_calls (h : Rep start cxt calls) {more : List FtCall} (hmore : ∀ c ∈ more, Named c) :
    ∃ cxt', more.foldlM FtCxt.call cxt = some cxt' ∧ Rep start cxt' (calls ++ more) := by
  induction more generalizing cxt calls with
  | nil =>
    rw [List.append_nil]
    exact ⟨cxt, rfl, h⟩
  | cons c more ih =>
    obtain ⟨hc, hrest⟩ := List.forall_mem_cons.mp hmore
    obtain ⟨cxt', hcall, hrep⟩ := h.of_call hc
    obtain ⟨cxt'', hfold, hrep'⟩ := ih hrep hrest
    rw [List.append_assoc, List.singleton_append] at hrep'
    refine ⟨cxt'', ?_, hrep'⟩
    rw [List.foldlM_cons, hcall]
    exact hfold

end Calls

end UBoot.Common.FtEncoding
