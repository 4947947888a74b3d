import UBoot.Env.BootCommand

namespace UBoot.Env.Getenv

open Lib.CString Layout Nvedit SetenvSpec Store BootCommand CrcCoherence LibGeneric.Crc32

/-- The bytes in front of the index are `name=`, at the start of an entry. In a text `name=value` the
name is what stands in front of the sign. -/
def NamedAt (d : List UInt8) (name : CStr) (v : ℕ) : Prop :=
  ∃ a b, d = a ++ (entryName name ++ eqSign :: b) ∧ v = a.length + (entryName name).length + 1 ∧
    (a = [] ∨ a.getLast? = some 0)

/-- `getenv` returns, without an access outside the block or the name, and what it returns is the
value of an entry with that name. -/
def Contained (env : EnvT) (name : CStr) : Prop :=
  ∃ r, getenvPtr env.data name (env.data.length + 1) 0 = some r ∧ ∀ v ∈ r, NamedAt env.data name v

/-- Inside the block, the walk over the entries comes to an empty one or to a definition of the name,
with no entry on the way that is the name itself. -/
inductive Ends (name : CStr) : List UInt8 → Prop
  | stop (t : List UInt8) : Ends name (0 :: t)
  | hit {e : CStr} (t : List UInt8) : NulFree e → eqSign ∈ e → entryName e = entryName name →
      Ends name (e ++ 0 :: t)
  | skip {e : CStr} {t : List UInt8} : e ≠ [] → NulFree e → e ≠ name → Ends name t →
      Ends name (e ++ 0 :: t)

/-- `envmatch` at an entry that need not be a definition: an entry that is the name itself lets it
run on behind both. -/
theorem envmatch_nulFree (a b : List UInt8) {e name : CStr} (he : NulFree e) (hn : NulFree name) :
    envmatch (a ++ (e ++ 0 :: b)) name a.length =
      if eqSign ∈ e ∧ entryName e = entryName name then some (some (a.length + (entryName e).length + 1))
      else if e = name then none else some none := by
  induction e generalizing a name with
  | nil =>
    cases name with
    | nil => simp [envmatch]
    | cons x s => simp [envmatch, hn x List.mem_cons_self]
  | cons c e ih =>
    have hc : c ≠ 0 := he c List.mem_cons_self
    have he' : NulFree e := fun x hx ↦ he x (List.mem_cons_of_mem c hx)
    cases name with
    | nil =>
      by_cases hce : c = eqSign
      · subst hce
        simp [envmatch, entryName, eqSign]
      · simp [envmatch, hc, hce, entryName]
    | cons x s =>
      by_cases hxc : x = c
      · subst hxc
        by_cases hxe : x = eqSign
        · subst hxe
          simp [envmatch, entryName_eqSign]
        · have hs : NulFree s := fun y hy ↦ hn y (List.mem_cons_of_mem x hy)
          have hr := ih (a ++ [x]) he' hs
          rw [List.length_append, List.append_assoc, List.length_singleton, List.singleton_append] at hr
          rw [List.cons_append, envmatch, peek_append, Option.bind_some, if_pos rfl, if_neg hxe, hr,
            entryName_cons_ne hxe, entryName_cons_ne hxe, List.length_cons]
          have hmem : eqSign ∈ x :: e ↔ eqSign ∈ e := by
            rw [List.mem_cons, or_iff_right (Ne.symm hxe)]
          have hidx : a.length + 1 + (entryName e).length + 1 =
              a.length + ((entryName e).length + 1) + 1 := by omega
          simp only [hmem, List.cons.injEq, true_and, hidx]
      · have hne : entryName (c :: e) ≠ entryName (x :: s) := by
          by_cases hce : c = eqSign
          · by_cases hxe : x = eqSign
            · exact absurd (hxe.trans hce.symm) hxc
            · rw [hce, entryName_eqSign, entryName_cons_ne hxe]
              exact (List.cons_ne_nil _ _).symm
          · by_cases hxe : x = eqSign
            · rw [hxe, entryName_eqSign, entryName_cons_ne hce]
              exact List.cons_ne_nil _ _
            · rw [entryName_cons_ne hce, entryName_cons_ne hxe]
              exact fun h ↦ hxc (List.cons.inj h).1.symm
        have hname : c :: e ≠ x :: s := fun h ↦ hxc (List.cons.inj h).1.symm
        rw [List.cons_append, envmatch, peek_append, Option.bind_some, if_neg hxc,
          if_neg fun h ↦ hne h.2, if_neg hname]

theorem entryEnd_nulFree {size : ℕ} {cs : List UInt8} (h : NulFree cs) {i : ℕ}
    (hi : i + cs.length ≤ size) : entryEnd size cs i = none := by
  induction cs generalizing i with
  | nil => rfl
  | cons c cs ih =>
    rw [List.length_cons] at hi
    rw [entryEnd, if_neg (h c List.mem_cons_self), if_neg (by omega)]
    exact ih (fun x hx ↦ h x (List.mem_cons_of_mem c hx)) (by omega)

theorem Ends.zero_mem {name : CStr} {t : List UInt8} (h : Ends name t) : 0 ∈ t := by
  cases h <;> simp

theorem ends_append_iff {name e : CStr} {b : List UInt8} (he : NulFree e) (hne : e ≠ []) :
    Ends name (e ++ 0 :: b) ↔
      (eqSign ∈ e ∧ entryName e = entryName name) ∨ (e ≠ name ∧ Ends name b) := by
  constructor
  · generalize ht : e ++ 0 :: b = t
    intro h
    cases h with
    | stop t =>
      obtain ⟨c, e, rfl⟩ := List.exists_cons_of_ne_nil hne
      exact absurd (List.cons.inj ht).1 (he c List.mem_cons_self)
    | hit t he' hmem hname =>
      obtain ⟨rfl, -⟩ := append_nul_inj he he' ht
      exact .inl ⟨hmem, hname⟩
    | skip _ he' hskip hrest =>
      obtain ⟨rfl, rfl⟩ := append_nul_inj he he' ht
      exact .inr ⟨hskip, hrest⟩
  · rintro (⟨hmem, hname⟩ | ⟨hskip, hrest⟩)
    · exact .hit b he hmem hname
    · exact .skip hne he hskip hrest

theorem exists_entry {t : List UInt8} (h : 0 ∈ t) : ∃ e b, t = e ++ 0 :: b ∧ NulFree e := by
  obtain ⟨e, b, rfl, hmem⟩ := List.eq_append_cons_of_mem h
  exact ⟨e, b, rfl, fun c hc h0 ↦ hmem (h0 ▸ hc)⟩

theorem length_room (a t : List UInt8) : a.length + t.length ≤ (a ++ t).length + envHeaderSize := by
  rw [List.length_append]
  exact Nat.le_add_right _ _

section

variable {name : CStr} (hn : NulFree name) (fuel : ℕ) (a : List UInt8)

include hn

theorem getenvPtr_entry {e : CStr} (b : List UInt8) (he : NulFree e) (hne : e ≠ []) :
    getenvPtr (a ++ (e ++ 0 :: b)) name (fuel + 1) a.length =
      if eqSign ∈ e ∧ entryName e = entryName name then some (some (a.length + (entryName e).length + 1))
      else if e = name then none
      else getenvPtr (a ++ (e ++ [0]) ++ b) name fuel (a ++ (e ++ [0])).length := by
  obtain ⟨c, e', he'⟩ := List.exists_cons_of_ne_nil hne
  have hc : c ≠ 0 := he c (he' ▸ List.mem_cons_self)
  have hpeek : (a ++ (e ++ 0 :: b))[a.length]? = some c := by
    rw [he', List.cons_append, peek_append]
  have hd : a ++ (e ++ [0]) ++ b = a ++ (e ++ 0 :: b) := by simp
  have hi : (a ++ (e ++ [0])).length = a.length + e.length + 1 := by
    simp only [List.length_append, List.length_singleton]
    omega
  rw [getenvPtr, hpeek, Option.bind_some, if_neg hc, drop_length_append,
    entryEnd_of_strlen (strlen_append e b he) (length_room a _), Option.bind_some]
  dsimp only
  rw [envmatch_nulFree a b he hn, hd, hi]
  split_ifs
  · rfl
  · rfl
  · rfl

omit hn in
theorem getenvPtr_open {e : CStr} (he : NulFree e) :
    getenvPtr (a ++ e) name (fuel + 1) a.length = none := by
  cases e with
  | nil => simp [getenvPtr]
  | cons c e =>
    rw [getenvPtr, peek_append, Option.bind_some, if_neg (he c List.mem_cons_self), drop_length_append,
      entryEnd_nulFree he (length_room a _), Option.bind_none]

theorem getenvPtr_ends_iff (t : List UInt8) (hf : t.length < fuel) :
    (∃ r, getenvPtr (a ++ t) name fuel a.length = some r) ↔ Ends name t := by
  induction fuel generalizing a t with
  | zero => omega
  | succ fuel ih =>
    by_cases hmem : 0 ∈ t
    · obtain ⟨e, b, rfl, he⟩ := exists_entry hmem
      by_cases hne : e = []
      · subst hne
        exact iff_of_true ⟨none, by simp [getenvPtr]⟩ (.stop b)
      · rw [getenvPtr_entry hn fuel a b he hne, ends_append_iff he hne]
        rw [List.length_append, List.length_cons] at hf
        by_cases hhit : eqSign ∈ e ∧ entryName e = entryName name
        · rw [if_pos hhit]
          exact iff_of_true ⟨_, rfl⟩ (.inl hhit)
        · rw [if_neg hhit, or_iff_right hhit]
          by_cases hname : e = name
          · rw [if_pos hname]
            refine iff_of_false ?_ fun h ↦ h.1 hname
            rintro ⟨r, hr⟩
            cases hr
          · rw [if_neg hname, and_iff_right hname]
            exact ih (a ++ (e ++ [0])) b (by omega)
    · have hnul : NulFree t := fun x hx h0 ↦ hmem (h0 ▸ hx)
      rw [getenvPtr_open fuel a hnul]
      refine iff_of_false ?_ fun h ↦ hmem h.zero_mem
      rintro ⟨r, hr⟩
      cases hr

theorem getenvPtr_namedAt (t : List UInt8) (ha : a = [] ∨ a.getLast? = some 0) {v : ℕ}
    (h : getenvPtr (a ++ t) name fuel a.length = some (some v)) : NamedAt (a ++ t) name v := by
  induction fuel generalizing a t with
  | zero => cases h
  | succ fuel ih =>
    by_cases hmem : 0 ∈ t
    · obtain ⟨e, b, rfl, he⟩ := exists_entry hmem
      by_cases hne : e = []
      · subst hne
        simp [getenvPtr] at h
      · rw [getenvPtr_entry hn fuel a b he hne] at h
        split_ifs at h with hhit hname
        · obtain ⟨hsign, hname⟩ := hhit
          obtain ⟨w, rfl, -⟩ := exists_var he hsign
          refine ⟨a, w.value ++ 0 :: b, ?_, ?_, ha⟩
          · rw [← hname, Var.entryName_entry, Var.entry]
            simp
          · rw [← hname]
            exact (Option.some.inj (Option.some.inj h)).symm
        · have hd : a ++ (e ++ [0]) ++ b = a ++ (e ++ 0 :: b) := by simp
          rw [← hd]
          exact ih (a ++ (e ++ [0])) b (.inr (by simp)) h
    · have hnul : NulFree t := fun x hx h0 ↦ hmem (h0 ▸ hx)
      rw [getenvPtr_open fuel a hnul] at h
      cases h

end

/-- Whatever the block holds, `getenv` keeps to it and to the name exactly when the walk over the
entries ends inside the block and passes no entry without a sign that is the name. -/
theorem getenv_contained_iff (env : EnvT) (name : CStr) (hname : NulFree name) :
    Contained env name ↔ Ends name env.data := by
  have hiff := getenvPtr_ends_iff hname (env.data.length + 1) [] env.data (Nat.lt_succ_self _)
  rw [List.nil_append, List.length_nil] at hiff
  constructor
  · rintro ⟨r, hr, -⟩
    exact hiff.mp ⟨r, hr⟩
  · intro h
    obtain ⟨r, hr⟩ := hiff.mpr h
    refine ⟨r, hr, ?_⟩
    intro v hv
    rw [Option.mem_def] at hv
    subst hv
    exact getenvPtr_namedAt hname _ [] env.data (.inl rfl) hr

def sealed (d : List UInt8) : EnvT := ⟨crc32 0 d, d⟩

theorem getenv_contained_second : Contained (sealed (terminated [ascii "a=1", ascii "b=2"])) (ascii "b") := by
  apply (getenv_contained_iff (sealed (terminated [ascii "a=1", ascii "b=2"])) (ascii "b")
    (by decide)).mpr
  have hb : Ends (ascii "b") (ascii "b=2" ++ 0 :: [0]) := .hit [0] (by decide) (by decide) (by decide)
  exact .skip (e := ascii "a=1") (by decide) (by decide) (by decide) hb

/-- A block without a terminator, and an entry that is the name without a sign. -/
theorem getenv_leaves_block :
    (sealed (ascii "a=1b=2")).crc = crc32 0 (sealed (ascii "a=1b=2")).data ∧
      ¬ Contained (sealed (ascii "a=1b=2")) (ascii "b") ∧
    (sealed (terminated [ascii "a=1", ascii "b"])).crc =
        crc32 0 (sealed (terminated [ascii "a=1", ascii "b"])).data ∧
      ¬ Contained (sealed (terminated [ascii "a=1", ascii "b"])) (ascii "b") := by
  have hfull : getenvPtr (sealed (ascii "a=1b=2")).data (ascii "b")
      ((sealed (ascii "a=1b=2")).data.length + 1) 0 = none := by
    decide +kernel
  have hbare : getenvPtr (sealed (terminated [ascii "a=1", ascii "b"])).data (ascii "b")
      ((sealed (terminated [ascii "a=1", ascii "b"])).data.length + 1) 0 = none := by
    decide +kernel
  refine ⟨rfl, ?_, rfl, ?_⟩
  · rintro ⟨r, hr, -⟩
    rw [hfull] at hr
    cases hr
  · rintro ⟨r, hr, -⟩
    rw [hbare] at hr
    cases hr

section

variable (d : List UInt8)

/-- The `while` loop of `getenv_r` with `room = len - n`; the result has `n`, how far `buf` was moved
and the memory at `buf`. -/
def copyOut : ℕ → ℕ → ℕ → List UInt8 → Option (ℕ × ℕ × List UInt8)
  | 0, n, _, buf => some (n + 1, n, buf)
  | room + 1, n, val, buf => d[val]?.bind fun c ↦ (poke buf n c).bind fun buf ↦
    if c = 0 then some (n + 1, n + 1, buf) else copyOut room (n + 1) (val + 1) buf

/-- `getenv_r`, with the object at `buf`. The search is that of `getenv`. -/
def getenvR (name : CStr) (buf : List UInt8) (len : ℕ) : Option (ℤ × List UInt8) :=
  (getenvPtr d name (d.length + 1) 0).bind fun
    | none => some (-1, buf)
    | some val => (copyOut d len 0 val buf).bind fun (n, p, buf) ↦
      if len = n then (poke buf p 0).map fun buf ↦ ((n : ℤ), buf) else some ((n : ℤ), buf)

/-- What `getenv_r` promises about an object of `len` bytes and the value of a variable. -/
def Copies (name : CStr) (buf : List UInt8) (len : ℕ) (value : Option CStr) : Prop :=
  ∃ n buf', getenvR d name buf len = some (n, buf') ∧ (n = -1 ↔ value = none) ∧
    match value with
    | none => buf' = buf
    | some v => v.take (len - 1) ++ [0] <+: buf'

end

/-- The loop with `a` copied so far and the rest `v` of the value in front of it. -/
theorem copyOut_value {d : List UInt8} {v b : List UInt8} (hv : NulFree v) (a x : List UInt8) (val : ℕ)
    (hval : d.drop val = v ++ 0 :: b) :
    copyOut d x.length a.length val (a ++ x) =
      if v.length < x.length then
        some (a.length + v.length + 1, a.length + v.length + 1, a ++ (v ++ 0 :: x.drop (v.length + 1)))
      else some (a.length + x.length + 1, a.length + x.length, a ++ v.take x.length) := by
  induction x generalizing a v val with
  | nil => simp [copyOut]
  | cons y x ih =>
    have hget : ∀ c t, v ++ 0 :: b = c :: t → d[val]? = some c := by
      intro c t h
      rw [← List.head?_drop, hval, h, List.head?_cons]
    cases v with
    | nil =>
      rw [List.length_cons, copyOut, hget 0 b rfl, Option.bind_some, poke_append, Option.bind_some,
        if_pos rfl]
      exact (if_pos (Nat.succ_pos x.length)).symm
    | cons c v =>
      have hc : c ≠ 0 := hv c List.mem_cons_self
      have hv' : NulFree v := fun z hz ↦ hv z (List.mem_cons_of_mem c hz)
      have hval' : d.drop (val + 1) = v ++ 0 :: b := by
        rw [← List.drop_drop, hval]
        rfl
      have hr := ih hv' (a ++ [c]) (val + 1) hval'
      rw [List.length_append, List.length_singleton, List.append_assoc, List.singleton_append] at hr
      rw [List.length_cons, copyOut, hget c _ rfl, Option.bind_some, poke_append, Option.bind_some,
        if_neg hc, hr]
      simp only [List.length_cons, Nat.add_lt_add_iff_right, List.take_succ_cons, List.drop_succ_cons,
        List.append_assoc, List.cons_append, List.nil_append]
      split_ifs
      · have hidx : a.length + 1 + v.length + 1 = a.length + (v.length + 1) + 1 := by omega
        rw [hidx]
      · have hidx : a.length + 1 + x.length = a.length + (x.length + 1) := by omega
        rw [hidx]

theorem drop_of_getenvPtr {d : List UInt8} {vs : List Var} (hd : Distinct vs) (h : image vs <+: d)
    {name : CStr} (hn : NulFree name) : ∃ r, getenvPtr d name (d.length + 1) 0 = some r ∧
      ((r = none ∧ lookup vs (entryName name) = none) ∨
        ∃ val v b, r = some val ∧ lookup vs (entryName name) = some v ∧ NulFree v ∧
          d.drop val = v ++ 0 :: b) := by
  have hfuel := length_lt_of_image h
  obtain ⟨b, rfl⟩ := exists_block_of_image h
  have hptr := getenvPtr_block [] b vs hn ((block vs ++ 0 :: b).length + 1) hfuel
  rw [List.nil_append, List.length_nil] at hptr
  refine ⟨_, hptr, ?_⟩
  by_cases hmem : ∃ v ∈ vs, v.name = entryName name
  · obtain ⟨w, us, ws, rfl, hname, hus⟩ := exists_split hd hmem
    refine .inr ⟨0 + (block us).length + w.name.length + 1, w.value, block ws ++ 0 :: b, ?_, ?_,
      w.value_ok, ?_⟩
    · rw [← hname, position_append hus]
    · rw [← hname, lookup_append_of_forall_ne hus, lookup_cons_self]
    · have hblock : block (us ++ w :: ws) ++ 0 :: b =
          (block us ++ (w.name ++ [eqSign])) ++ (w.value ++ 0 :: (block ws ++ 0 :: b)) := by
        simp [Var.entry]
      rw [hblock]
      exact List.drop_left' (by simp; omega)
  · have hne : ∀ v ∈ vs, v.name ≠ entryName name := fun v hv heq ↦ hmem ⟨v, hv, heq⟩
    exact .inl ⟨position_eq_none hne 0, lookup_eq_none hne⟩

/-- `getenv_r` keeps its promise exactly when the variable is not defined or the value and two more
bytes fit. -/
theorem getenv_r_copies_iff (d : List UInt8) (vs : List Var) (hd : Distinct vs) (h : image vs <+: d)
    (name : CStr) (hn : NulFree name) (buf : List UInt8) (hlen : 0 < buf.length) :
    Copies d name buf buf.length (lookup vs (entryName name)) ↔
      ∀ v, lookup vs (entryName name) = some v → v.length + 1 < buf.length := by
  obtain ⟨r, hr, ⟨rfl, hnone⟩ | ⟨val, v, b, rfl, hsome, hv, hdrop⟩⟩ := drop_of_getenvPtr hd h hn
  · rw [hnone]
    refine iff_of_true ⟨-1, buf, ?_, by simp, rfl⟩ nofun
    rw [getenvR, hr]
    rfl
  · have hcopy := copyOut_value hv [] buf val hdrop
    rw [List.nil_append, List.length_nil, Nat.zero_add, Nat.zero_add] at hcopy
    rw [hsome]
    have hrun : getenvR d name buf buf.length = (copyOut d buf.length 0 val buf).bind fun (n, p, buf') ↦
        if buf.length = n then (poke buf' p 0).map fun buf' ↦ ((n : ℤ), buf')
        else some ((n : ℤ), buf') := by
      rw [getenvR, hr]
      rfl
    rw [hcopy] at hrun
    rcases Nat.lt_trichotomy (v.length + 1) buf.length with hlt | heq | hgt
    · refine iff_of_true ?_ fun w hw ↦ Option.some.inj hw ▸ hlt
      rw [if_pos (by omega), Option.bind_some] at hrun
      dsimp only at hrun
      rw [if_neg (by omega)] at hrun
      refine ⟨_, _, hrun, by simp; omega, ?_⟩
      dsimp only
      rw [List.take_of_length_le (by omega)]
      exact ⟨buf.drop (v.length + 1), by simp⟩
    · -- the terminator stored once more goes behind the buffer
      refine iff_of_false ?_ fun hall ↦ absurd (hall v rfl) (by omega)
      rw [if_pos (by omega), Option.bind_some] at hrun
      dsimp only at hrun
      have hfull : ([] ++ (v ++ 0 :: buf.drop (v.length + 1))).length = v.length + 1 := by
        rw [List.nil_append, List.length_append, List.length_cons, List.length_drop]
        omega
      have hout : poke ([] ++ (v ++ 0 :: buf.drop (v.length + 1))) (v.length + 1) 0 = none := by
        rw [poke, hfull, if_neg (Nat.lt_irrefl _)]
      rw [if_pos heq.symm, hout, Option.map_none] at hrun
      rintro ⟨n, buf', hrun', -⟩
      rw [hrun] at hrun'
      cases hrun'
    · refine iff_of_false ?_ fun hall ↦ absurd (hall v rfl) (by omega)
      rw [if_neg (by omega), Option.bind_some] at hrun
      dsimp only at hrun
      rw [if_neg (by omega), List.nil_append] at hrun
      rintro ⟨n, buf', hrun', -, hpre⟩
      rw [hrun] at hrun'
      obtain ⟨rfl, rfl⟩ := Prod.mk.inj (Option.some.inj hrun')
      have hzero : (0 : UInt8) ∈ v.take buf.length := hpre.subset (by simp)
      exact hv 0 (List.mem_of_mem_take hzero) rfl

/-- The variable `a` with the value `xyz`. -/
def xyzVar : Var := ⟨ascii "a", ascii "xyz", oldVar.name_ok, by decide⟩

/-- Three bytes and two more fit in eight. -/
theorem getenv_r_copies_eight :
    Copies (block [xyzVar] ++ [0]) (ascii "a") (List.replicate 8 0xff) 8 (some (ascii "xyz")) := by
  apply (getenv_r_copies_iff (block [xyzVar] ++ [0]) [xyzVar] (List.nodup_singleton _) (by decide)
    (ascii "a") (by decide) (List.replicate 8 0xff) (by decide)).mpr
  intro v hv
  obtain rfl := Option.some.inj hv
  decide

/-- In four bytes the second terminator goes behind the buffer, in three there is none. -/
theorem getenv_r_short_buffer :
    (Distinct [xyzVar] ∧ image [xyzVar] <+: block [xyzVar] ++ [0]) ∧
      getenvR (block [xyzVar] ++ [0]) (ascii "a") (List.replicate 4 0xff) 4 = none ∧
      ¬ Copies (block [xyzVar] ++ [0]) (ascii "a") (List.replicate 4 0xff) 4 (some (ascii "xyz")) ∧
      ¬ Copies (block [xyzVar] ++ [0]) (ascii "a") (List.replicate 3 0xff) 3 (some (ascii "xyz")) := by
  have hfour : getenvR (block [xyzVar] ++ [0]) (ascii "a") (List.replicate 4 0xff) 4 = none := by
    decide +kernel
  have hthree : getenvR (block [xyzVar] ++ [0]) (ascii "a") (List.replicate 3 0xff) 3 =
      some (4, ascii "xyz") := by
    decide +kernel
  refine ⟨⟨List.nodup_singleton _, by decide⟩, hfour, ?_, ?_⟩
  · rintro ⟨n, buf', hrun, -⟩
    rw [hfour] at hrun
    cases hrun
  · rintro ⟨n, buf', hrun, -, hpre⟩
    rw [hthree] at hrun
    obtain ⟨rfl, rfl⟩ := Prod.mk.inj (Option.some.inj hrun)
    exact absurd hpre (by decide)

end UBoot.Env.Getenv
