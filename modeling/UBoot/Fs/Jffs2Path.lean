import UBoot.Fs.Jffs2Dirents

namespace UBoot.Fs.Jffs2Path

open Lib.CString Jffs2 Jffs2Dirents

/-- `strncpy(&dest[p], src, count)`, which stops behind a NUL. -/
def strncpy (dest : List UInt8) (p : ℕ) : ℕ → CStr → Option (List UInt8)
  | 0, _ => some dest
  | count + 1, src => do
    let dest ← poke dest p (first src)
    if first src = 0 then some dest else strncpy dest (p + 1) count src.tail

/-- `for (i = 0; i < strlen(c) - 1; i++) tmp[i] = c[i + 1];` with `c` inside `tmp`; `i` and `tmp` when
it ends. -/
def shiftLoop (c : ℕ) : ℕ → ℕ → List UInt8 → Option (ℕ × List UInt8)
  | 0, _, _ => none
  | fuel + 1, i, tmp => do
    let len ← strlen (tmp.drop c)
    if i < (UInt32.ofNat len - 1).toNat then
      let x ← tmp[c + (i + 1)]?
      let tmp ← poke tmp i x
      shiftLoop c fuel (i + 1) tmp
    else some (i, tmp)

section Search

variable (findInode : CStr → UInt32 → UInt32)

/-- `while ((c = strchr(tmp, '/')))` and the lookup of the bare filename behind it. -/
def searchLoop : ℕ → List UInt8 → List UInt8 → UInt32 → Option UInt32
  | 0, _, _, _ => none
  | fuel + 1, tmp, workingTmp, pino => do
    let s ← load tmp
    match strchr s 47 with
    | some c =>
      let workingTmp ← strncpy workingTmp 0 c s
      let workingTmp ← poke workingTmp c 0
      let (i, tmp) ← shiftLoop c 256 0 tmp
      let tmp ← poke tmp i 0
      let name ← load workingTmp
      let pino := findInode name pino
      if pino = 0 then some 0 else searchLoop fuel tmp workingTmp pino
    | none => some (findInode s pino)

/-- The lookups of the components one after the other. -/
def resolve (components : List CStr) (pino : UInt32) : Option UInt32 :=
  components.foldlM (fun pino name ↦
    if findInode name pino = 0 then none else some (findInode name pino)) pino

end Search

/-- The bytes that the two arrays have on the stack. -/
structure Stack where
  tmp : Vector UInt8 256
  workingTmp : Vector UInt8 256

/-- `jffs2_1pass_search_inode`; `none` is an access outside one of the arrays, or no end. -/
def searchInode (stack : Stack) (dir : Dirents × BList) (fname : CStr) (pino : UInt32) :
    Option UInt32 := do
  let (tmp, _) ← store stack.tmp.toList 0 (fname.dropWhile (· = 47))
  searchLoop (findInode dir) 256 tmp stack.workingTmp.toList pino

def components (fname : CStr) : List CStr := (fname.dropWhile (· = 47)).splitOn 47

section Strings

variable {name rest s : List UInt8} {n : ℕ}

theorem strncpy_append (a x : List UInt8) (hs : NulFree s) (hn : n ≤ s.length)
    (hx : n ≤ x.length) :
    strncpy (a ++ x) a.length n s = some (a ++ (s.take n ++ x.drop n)) := by
  induction n generalizing a x s with
  | zero => rfl
  | succ n ih =>
    obtain _ | ⟨c, s⟩ := s
    · simp at hn
    obtain _ | ⟨y, x⟩ := x
    · simp at hx
    have hc : c ≠ 0 := hs c List.mem_cons_self
    have hrest := ih (a ++ [c]) x (fun b hb ↦ hs b (List.mem_cons_of_mem c hb))
      (Nat.le_of_succ_le_succ hn) (Nat.le_of_succ_le_succ hx)
    rw [List.length_append, List.append_assoc, List.append_assoc] at hrest
    rw [strncpy, first_cons, poke_append, Option.bind_eq_bind, Option.bind_some, if_neg hc]
    exact hrest

theorem strncpy_length {dest dest' : List UInt8} {p : ℕ} (h : strncpy dest p n s = some dest') :
    dest'.length = dest.length := by
  induction n generalizing dest p s with
  | zero =>
    cases h
    rfl
  | succ n ih =>
    rw [strncpy] at h
    obtain ⟨stored, hpoke, h⟩ := Option.bind_eq_some_iff.mp h
    split_ifs at h
    · cases h
      exact poke_length hpoke
    · exact (ih h).trans (poke_length hpoke)

/-- The component in its array. -/
theorem workingTmp_eq (x : List UInt8) (hname : NulFree name) (hrest : NulFree rest)
    (hx : name.length < x.length) :
    ∃ junk, (strncpy x 0 name.length (name ++ 47 :: rest)).bind (poke · name.length 0) =
      some (name ++ 0 :: junk) := by
  have hfree : NulFree (name ++ 47 :: rest) :=
    hname.append (List.forall_mem_cons.mpr ⟨by decide, hrest⟩)
  have hle : name.length ≤ (name ++ 47 :: rest).length := by
    rw [List.length_append]
    exact Nat.le_add_right _ _
  have hcopy := strncpy_append [] x hfree hle hx.le
  rw [List.nil_append, List.nil_append, List.length_nil, List.take_left,
    List.drop_eq_getElem_cons hx] at hcopy
  rw [hcopy, Option.bind_some]
  exact ⟨_, poke_append name _ _ 0⟩

theorem strchr_eq_some {c : UInt8} {p : ℕ} (h : strchr s c = some p) :
    ∃ a b, s = a ++ c :: b ∧ c ∉ a ∧ p = a.length := by
  have hcut : cut s c = some (s.take p, s.drop (p + 1)) := by rw [cut, h]; rfl
  obtain ⟨hs, hnot⟩ := cut_eq_some.mp hcut
  have hlt : p < s.length := by
    by_contra hle
    have hlength := congrArg List.length hs
    simp [List.take_of_length_le (not_lt.mp hle)] at hlength
  exact ⟨_, _, hs, hnot, (List.length_take_of_le hlt.le).symm⟩

/-- The string while the loop moves what is behind the slash to its front. -/
def shifted (name rest : List UInt8) (i : ℕ) : List UInt8 := rest.take i ++ (name ++ 47 :: rest).drop i

theorem length_shifted {i : ℕ} (hi : i ≤ rest.length) :
    (shifted name rest i).length = name.length + (rest.length + 1) := by
  simp [shifted]
  omega

theorem shifted_free (hname : NulFree name) (hrest : NulFree rest) (i : ℕ) :
    NulFree (shifted name rest i) := by
  have hs : NulFree (name ++ 47 :: rest) :=
    hname.append (List.forall_mem_cons.mpr ⟨by decide, hrest⟩)
  exact NulFree.append (fun c hc ↦ hrest c (List.mem_of_mem_take hc))
    fun c hc ↦ hs c (List.mem_of_mem_drop hc)

/-- `tmp[i] = c[i + 1]` -/
theorem shifted_step (junk : List UInt8) {i : ℕ} (hi : i < rest.length) :
    ((shifted name rest i ++ 0 :: junk)[name.length + (i + 1)]?).bind
        (poke (shifted name rest i ++ 0 :: junk) i) =
      some (shifted name rest (i + 1) ++ 0 :: junk) := by
  have hfront : (rest.take i).length = i := List.length_take_of_le hi.le
  have hread : (shifted name rest i ++ 0 :: junk)[name.length + (i + 1)]? = some (rest[i]) := by
    rw [List.getElem?_append_left (by rw [length_shifted hi.le]; omega), shifted,
      List.getElem?_append_right (by omega), hfront, List.getElem?_drop]
    have hindex : i + (name.length + (i + 1) - i) = name.length + (i + 1) := by omega
    rw [hindex, List.getElem?_append_right (Nat.le_add_right _ _), Nat.add_sub_cancel_left,
      List.getElem?_cons_succ, List.getElem?_eq_getElem hi]
  have hlt : i < (name ++ 47 :: rest).length := by
    rw [List.length_append, List.length_cons]
    omega
  have hsplit : shifted name rest i ++ 0 :: junk = rest.take i ++
      (name ++ 47 :: rest)[i] :: ((name ++ 47 :: rest).drop (i + 1) ++ 0 :: junk) := by
    rw [shifted, List.drop_eq_getElem_cons hlt, List.append_assoc, List.cons_append]
  have hpoke := poke_append (rest.take i) ((name ++ 47 :: rest).drop (i + 1) ++ 0 :: junk)
    (name ++ 47 :: rest)[i] rest[i]
  rw [hfront] at hpoke
  rw [hread, Option.bind_some, hsplit, hpoke, shifted, List.take_succ_eq_append_getElem hi,
    List.append_assoc, List.append_assoc]
  rfl

/-- The length behind the slash does not change while the loop runs. -/
theorem shiftLoop_shifted (hname : NulFree name) (hrest : NulFree rest) (junk : List UInt8)
    (hlength : rest.length < 2 ^ 32 - 1) {i fuel : ℕ} (hi : i ≤ rest.length)
    (hfuel : rest.length - i < fuel) :
    shiftLoop name.length fuel i (shifted name rest i ++ 0 :: junk) =
      some (rest.length, shifted name rest rest.length ++ 0 :: junk) := by
  induction fuel generalizing i with
  | zero => exact absurd hfuel (Nat.not_lt_zero _)
  | succ fuel ih =>
    have hlen : strlen ((shifted name rest i ++ 0 :: junk).drop name.length) =
        some (rest.length + 1) := by
      have hle : name.length ≤ (shifted name rest i).length := by
        rw [length_shifted hi]
        exact Nat.le_add_right _ _
      rw [List.drop_append_of_le_length hle, strlen_append, List.length_drop, length_shifted hi,
        Nat.add_sub_cancel_left]
      exact fun c hc ↦ shifted_free hname hrest i c (List.mem_of_mem_drop hc)
    have hbound : (UInt32.ofNat (rest.length + 1) - 1).toNat = rest.length := by
      have hone : (1 : UInt32).toNat = 1 := rfl
      rw [UInt32.toNat_sub, UInt32.toNat_ofNat', hone]
      omega
    rw [shiftLoop, hlen, Option.bind_eq_bind, Option.bind_some, hbound]
    split_ifs with hlt
    · obtain ⟨x, hx, hstep⟩ := Option.bind_eq_some_iff.mp (shifted_step junk hlt)
      simp only [Option.bind_eq_bind]
      rw [hx, Option.bind_some, hstep, Option.bind_some]
      exact ih hlt (by omega)
    · have heq : i = rest.length := by omega
      rw [heq]

/-- `tmp` behind the loop and the NUL after it. -/
theorem shiftLoop_rest (hname : NulFree name) (hrest : NulFree rest) (junk : List UInt8)
    (hlength : rest.length < 256) :
    ∃ junk', (shiftLoop name.length 256 0 (name ++ 47 :: rest ++ 0 :: junk)).bind
        (fun r ↦ poke r.2 r.1 0) = some (rest ++ 0 :: junk') ∧
      (rest ++ 0 :: junk').length = (name ++ 47 :: rest ++ 0 :: junk).length := by
  have hloop := shiftLoop_shifted hname hrest junk (by omega) (Nat.zero_le _) (by omega : _ < 256)
  have hstart : shifted name rest 0 = name ++ 47 :: rest := rfl
  have hlt : rest.length < (name ++ 47 :: rest).length := by
    rw [List.length_append, List.length_cons]
    omega
  have hend : shifted name rest rest.length ++ 0 :: junk = rest ++ (name ++ 47 :: rest)[rest.length] ::
      ((name ++ 47 :: rest).drop (rest.length + 1) ++ 0 :: junk) := by
    rw [shifted, List.take_length, List.drop_eq_getElem_cons hlt, List.append_assoc,
      List.cons_append]
  rw [hstart, hend] at hloop
  have hpoke := poke_append rest ((name ++ 47 :: rest).drop (rest.length + 1) ++ 0 :: junk)
    (name ++ 47 :: rest)[rest.length] 0
  refine ⟨_, by rw [hloop, Option.bind_some]; exact hpoke, ?_⟩
  rw [List.length_append, List.length_cons, List.length_append, List.length_drop,
    @List.length_append _ (name ++ 47 :: rest)]
  omega

end Strings

section Walk

variable {find : CStr → UInt32 → UInt32} {s : CStr}

theorem resolve_cons (name : CStr) (names : List CStr) (pino : UInt32) :
    (resolve find (name :: names) pino).getD 0 =
      if find name pino = 0 then 0
      else (resolve find names (find name pino)).getD 0 := by
  rw [resolve, List.foldlM_cons]
  split_ifs <;> rfl

theorem resolve_singleton (name : CStr) (pino : UInt32) :
    (resolve find [name] pino).getD 0 = find name pino := by
  rw [resolve_cons]
  split_ifs with h
  · exact h.symm
  · rfl

theorem searchLoop_eq (hs : NulFree s) {fuel : ℕ} (hfuel : s.count 47 < fuel) {tmp : List UInt8}
    {junk workingTmp : List UInt8} (htmp : s ++ 0 :: junk = tmp) (hsize : tmp.length = 256)
    (hworking : workingTmp.length = 256) (pino : UInt32) :
    searchLoop find fuel tmp workingTmp pino =
      some ((resolve find (s.splitOn 47) pino).getD 0) := by
  induction fuel generalizing s tmp junk workingTmp pino with
  | zero => exact absurd hfuel (Nat.not_lt_zero _)
  | succ fuel ih =>
    subst htmp
    rw [searchLoop, load_append s junk hs, Option.bind_eq_bind, Option.bind_some]
    cases hslash : strchr s 47 with
    | none =>
      rw [List.splitOn_eq_singleton (strchr_eq_none.mp hslash), resolve_singleton]
    | some c =>
      obtain ⟨name, rest, rfl, hnot, rfl⟩ := strchr_eq_some hslash
      have hname : NulFree name := fun x hx ↦ hs x (List.mem_append_left _ hx)
      have hrest : NulFree rest := fun x hx ↦
        hs x (List.mem_append_right _ (List.mem_cons_of_mem _ hx))
      have hroom : name.length + (rest.length + 1) < 256 := by
        simp only [List.length_append, List.length_cons] at hsize
        omega
      obtain ⟨junkName, hcopied⟩ := workingTmp_eq workingTmp hname hrest (by omega)
      obtain ⟨junk', hshifted, hlength⟩ := shiftLoop_rest hname hrest junk (by omega)
      obtain ⟨copied, hcopy, hend⟩ := Option.bind_eq_some_iff.mp hcopied
      obtain ⟨⟨i, tmp⟩, hloop, hnul⟩ := Option.bind_eq_some_iff.mp hshifted
      have hcount : rest.count 47 < fuel := by
        rw [List.count_append, List.count_cons_self] at hfuel
        omega
      dsimp only at hnul
      simp only [Option.bind_eq_bind, hcopy, hend, hloop, hnul, Option.bind_some,
        load_append name junkName hname]
      rw [List.splitOn_append_cons_self_of_not_mem hnot, resolve_cons]
      split_ifs with hzero
      · rfl
      · have hkept := (poke_length hend).trans ((strncpy_length hcopy).trans hworking)
        exact ih hrest hcount rfl (hlength.trans hsize) hkept _

/-- The shifting string in `tmp` is walked as its components are. -/
theorem search_inode_eq_resolve (stack : Stack) (dir : Dirents × BList) (fname : CStr)
    (hfree : NulFree fname) (hshort : fname.length < 256) (pino : UInt32) :
    searchInode stack dir fname pino =
      some ((resolve (findInode dir) (components fname) pino).getD 0) := by
  have hsize : stack.tmp.toList.length = 256 := by simp
  have hlength : (fname.dropWhile (· = 47)).length < 256 :=
    lt_of_le_of_lt (List.dropWhile_sublist _).length_le hshort
  have hstore := store_append [] stack.tmp.toList (fname.dropWhile (· = 47))
    (hlength.trans_eq hsize.symm)
  rw [List.nil_append, List.nil_append, List.length_nil] at hstore
  rw [searchInode, hstore, Option.bind_eq_bind, Option.bind_some, components]
  have hfree' : NulFree (fname.dropWhile (· = 47)) := fun c hc ↦
    hfree c ((List.dropWhile_sublist _).subset hc)
  generalize fname.dropWhile (· = 47) = s at hlength hstore hfree' ⊢
  apply searchLoop_eq hfree' _ rfl _ (by simp)
  · exact lt_of_le_of_lt List.count_le_length hlength
  · simp
    omega

theorem usr_length : (ascii "usr").length < 256 := by decide

theorem a_length : (ascii "a").length < 256 := by decide

/-- `usr` is inode 2 in directory 1, and `a` is inode 7 in directory 2. -/
def usrFlash (off : UInt32) : RawDirent :=
  if off = 0 then ⟨1, 1, 2, ascii "usr", usr_length⟩ else ⟨2, 1, 7, ascii "a", a_length⟩

theorem search_inode_eq_resolve_usr :
    NulFree (ascii "//usr/a") ∧ (ascii "//usr/a").length < 256 ∧
      searchInode ⟨Vector.replicate 256 47, Vector.replicate 256 47⟩
        (build ⟨.nor false, true⟩ usrFlash [0, 44]) (ascii "//usr/a") 1 = some 7 := by
  have hfound : (resolve (findInode (build ⟨.nor false, true⟩ usrFlash [0, 44]))
      (components (ascii "//usr/a")) 1).getD 0 = 7 := by decide +kernel
  refine ⟨by decide, by decide, ?_⟩
  rw [← hfound]
  exact search_inode_eq_resolve _ _ (ascii "//usr/a") (by decide) (by decide) 1

end Walk

end UBoot.Fs.Jffs2Path
