import UBoot.Env.Store

namespace UBoot.Tools.FwEnv

open Lib.CString Env Env.Layout Env.SetenvSpec Env.Store LibGeneric.Crc32
open Env.Nvedit (EnvT Globals Found entryEnd shiftDown endScan append define doSetenv)

def EINVAL : ℤ := 22

def EROFS : ℤ := 30

/-- Match a name against the entry at `s2`. `some (some p)` is the pointer to the value and
`some none` the result `NULL`; a pointer is the rest of its object. -/
def envmatch : CStr → List UInt8 → Option (Option (List UInt8))
  | _, [] => none
  | [], c :: s2 => if c = 0 then none else if c = eqSign then some (some s2) else some none
  | a :: s1, c :: s2 =>
    if a = c then if a = eqSign then some (some s2) else envmatch s1 s2 else some none

/-- The search of `fw_setenv`; `some none` is its return for an environment without an end. -/
def search (d : List UInt8) (name : CStr) : ℕ → ℕ → ℕ → Option (Option Found)
  | 0, _, _ => none
  | fuel + 1, env, nxt => d[env]?.bind fun c ↦
    if c = 0 then some (some ⟨env, nxt, none⟩)
    else (entryEnd d.length (d.drop env) env).bind fun
      | none => some none
      | some nxt' => (envmatch name (d.drop env)).bind fun
        | some val => some (some ⟨env, nxt', some (d.length - val.length)⟩)
        | none => search d name fuel (nxt' + 1) nxt'

/-- Unlike the boot loader, the first byte of a last entry is cleared and so is the one behind. -/
def deleteEntry (d : List UInt8) (env nxt : ℕ) : Option (List UInt8) :=
  d[nxt + 1]?.bind fun c ↦
    (if c = 0 then (poke d env 0).map (·, env) else shiftDown d.length d env (nxt + 1)).bind
      fun (d', env') ↦ poke d' (env' + 1) 0

/-- The new definition, if there is one, and the checksum `flash_io` writes with the data. -/
def addEntry (env : EnvT) (name : CStr) (args : List CStr) : Option (ℤ × EnvT) :=
  if args = [] then some (0, { env with crc := crc32 0 env.data })
  else (append env.data name (args.map some)).map fun
    | none => (-1, env)
    | some d => (0, ⟨crc32 0 d, d⟩)

/-- `fw_setenv` on the environment `env_init` has read, up to the write back. -/
def fwSetenv (env : EnvT) (name : CStr) (args : List CStr) : Option (ℤ × EnvT) :=
  (search env.data name (env.data.length + 1) 0 0).bind fun
    | none => some (EINVAL, env)
    | some found => match found.oldval with
      | none => addEntry env name args
      | some _ =>
        if name = ascii "ethaddr" ∨ name = ascii "serial#" then some (EROFS, env)
        else (deleteEntry env.data found.env found.nxt).bind fun d ↦
          addEntry { env with data := d } name args

/-- The two versions of `envmatch` are the same function, one on pointers and one on indices. -/
theorem envmatch_drop (d : List UInt8) (s1 : CStr) (i : ℕ) :
    envmatch s1 (d.drop i) = (Env.Nvedit.envmatch d s1 i).map (Option.map d.drop) := by
  induction s1 generalizing i with
  | nil =>
    by_cases hi : i < d.length
    · rw [List.drop_eq_getElem_cons hi]
      simp only [envmatch, Env.Nvedit.envmatch, List.getElem?_eq_getElem hi, Option.bind_some]
      split_ifs <;> rfl
    · rw [List.drop_eq_nil_of_le (by omega)]
      simp [envmatch, Env.Nvedit.envmatch, List.getElem?_eq_none (show d.length ≤ i by omega)]
  | cons a s1 ih =>
    by_cases hi : i < d.length
    · rw [List.drop_eq_getElem_cons hi]
      simp only [envmatch, Env.Nvedit.envmatch, List.getElem?_eq_getElem hi, Option.bind_some, ih]
      split_ifs <;> rfl
    · rw [List.drop_eq_nil_of_le (by omega)]
      simp [envmatch, Env.Nvedit.envmatch, List.getElem?_eq_none (show d.length ≤ i by omega)]

/-- The bound check of the tool never fires on a terminated entry. -/
theorem search_of_search {d : List UInt8} {name : CStr} {fuel env nxt : ℕ} {f : Found}
    (h : Env.Nvedit.search d name fuel env nxt = some f) :
    ∃ v, search d name fuel env nxt = some (some ⟨f.env, f.nxt, v⟩) ∧
      v.isSome = f.oldval.isSome := by
  induction fuel generalizing env nxt with
  | zero => cases h
  | succ fuel ih =>
    simp only [Env.Nvedit.search, Option.bind_eq_some_iff] at h
    obtain ⟨c, hc, h⟩ := h
    by_cases hz : c = 0
    · rw [if_pos hz] at h
      cases h
      exact ⟨none, by simp [search, hc, hz], rfl⟩
    · rw [if_neg hz, Option.bind_eq_some_iff] at h
      obtain ⟨n, hn, h⟩ := h
      obtain ⟨hlt, -⟩ := List.getElem?_eq_some_iff.mp hc
      have hsize : env + (d.drop env).length ≤ d.length := by
        rw [List.length_drop]
        omega
      have hend := entryEnd_of_strlen hn hsize
      obtain ⟨m, hm, h⟩ := Option.bind_eq_some_iff.mp h
      simp only [search, hc, Option.bind_some, if_neg hz, hend, envmatch_drop, hm, Option.map_some]
      obtain _ | val := m
      · exact ih h
      · cases h
        exact ⟨_, rfl, rfl⟩

theorem deleteEntry_eq_of_ne {d : List UInt8} {nxt : ℕ} {c : UInt8} (hc : d[nxt + 1]? = some c)
    (hne : c ≠ 0) (env : ℕ) : deleteEntry d env nxt = Env.Nvedit.deleteEntry d env nxt := by
  simp only [deleteEntry, Env.Nvedit.deleteEntry, hc, Option.bind_some, if_neg hne]

/-- The last entry: both bytes are cleared, so that the others end in a double NUL. -/
theorem deleteEntry_last_image (vs : List Var) (v : Var) (b : List UInt8) :
    ∃ d, deleteEntry (block (vs ++ [v]) ++ 0 :: b) (block vs).length
        ((block vs).length + v.entry.length) = some d ∧
      d.length = (block (vs ++ [v]) ++ 0 :: b).length ∧ image vs <+: d := by
  obtain ⟨c, e, he⟩ := List.exists_cons_of_ne_nil v.entry_ne_nil
  have hread := peek_behind vs [] v (0 :: b)
  have hd : block (vs ++ [v]) ++ 0 :: b = block vs ++ c :: (e ++ 0 :: 0 :: b) := by simp [he]
  obtain ⟨y, r, hy⟩ : ∃ y r, e ++ 0 :: 0 :: b = y :: r := by
    cases e with
    | nil => exact ⟨_, _, rfl⟩
    | cons y e => exact ⟨_, _, rfl⟩
  refine ⟨block vs ++ 0 :: 0 :: r, ?_, by rw [hd, hy]; simp, ?_⟩
  · simp only [deleteEntry, hread, block_nil, List.nil_append, List.head?_cons, Option.bind_some,
      if_true]
    rw [hd, hy, poke_append]
    have hp := poke_append (block vs ++ [0]) r y 0
    simp only [List.append_assoc, List.cons_append, List.nil_append, List.length_append,
      List.length_cons, List.length_nil, Nat.zero_add] at hp
    simp only [Option.map_some, Option.bind_some, hp]
  · cases vs with
    | nil => exact ⟨r, rfl⟩
    | cons u vs => exact ⟨0 :: r, by simp [image]⟩

theorem deleteEntry_image (vs ws : List Var) (v : Var) (b : List UInt8) :
    ∃ d, deleteEntry (block (vs ++ v :: ws) ++ 0 :: b) (block vs).length
        ((block vs).length + v.entry.length) = some d ∧
      d.length = (block (vs ++ v :: ws) ++ 0 :: b).length ∧ image (vs ++ ws) <+: d := by
  cases ws with
  | nil => simpa using deleteEntry_last_image vs v b
  | cons u ws =>
    obtain ⟨c, e, he⟩ := List.exists_cons_of_ne_nil u.entry_ne_nil
    have hread := peek_behind vs (u :: ws) v (0 :: b)
    have hhead : (block (u :: ws) ++ 0 :: b).head? = some c := by simp [he]
    rw [deleteEntry_eq_of_ne (hread.trans hhead) (u.entry_nulFree c (by simp [he]))]
    exact SetenvSpec.deleteEntry_image vs (u :: ws) v b

/-- The bytes up to and including the first double NUL. -/
def contents : List UInt8 → List UInt8
  | a :: b :: rest => if a = 0 ∧ b = 0 then [0, 0] else a :: contents (b :: rest)
  | l => l

theorem contents_prefix (d : List UInt8) : contents d <+: d := by
  fun_induction contents d with
  | case1 a b rest h =>
    obtain ⟨rfl, rfl⟩ := h
    exact ⟨rest, rfl⟩
  | case2 a b rest h ih => exact List.prefix_cons_inj a |>.mpr ih
  | case3 l => exact List.prefix_rfl

theorem contents_entries {w : List UInt8} (hw : Entries w) (b : List UInt8) :
    contents (w ++ 0 :: b) = w ++ [0] := by
  induction w with
  | nil => simp [Entries] at hw
  | cons c w ih =>
    cases w with
    | nil =>
      obtain rfl : c = 0 := by simpa [Entries] using hw
      simp [contents]
    | cons c' w =>
      obtain ⟨hl, hch⟩ := hw
      rw [List.isChain_cons_cons] at hch
      have hr := ih ⟨by simpa using hl, hch.2⟩
      simp only [List.cons_append] at hr ⊢
      rw [contents, if_neg (by tauto), hr]

theorem contents_image {vs : List Var} {d : List UInt8} (h : image vs <+: d) :
    contents d = image vs := by
  cases vs with
  | nil =>
    obtain ⟨b, rfl⟩ := h
    simp [image, contents]
  | cons v vs =>
    obtain ⟨b, rfl⟩ := exists_block_of_image h
    exact contents_entries (entries_block (by simp)) b

/-- Behind the deletion of an old definition, a call with a free name is `addEntry`. -/
theorem fwSetenv_free {env : EnvT} {vs : List Var} {name : CStr} (h : image vs <+: env.data)
    (hn : NulFree name) (args : List CStr) (hd : Distinct vs) (hr : name ∉ reserved) :
    ∃ env₁ : EnvT, env₁.data.length = env.data.length ∧
      image (delete vs (entryName name)) <+: env₁.data ∧
      fwSetenv env name args = addEntry env₁ name args := by
  obtain ⟨b, hb⟩ := exists_block_of_image h
  have hlen := length_lt_of_image h
  by_cases hv : ∃ v ∈ vs, v.name = entryName name
  · obtain ⟨v, us, ws, rfl, hname, hus⟩ := exists_split hd hv
    have hfuel : us.length < env.data.length + 1 := by
      simp only [List.length_append] at hlen
      omega
    obtain ⟨val, hs⟩ := search_some b us ws v hn (hname ▸ hus) hname _ hfuel
    rw [← hb] at hs
    obtain ⟨v', hfw, hsome⟩ := search_of_search hs
    obtain ⟨oldval, rfl⟩ := Option.isSome_iff_exists.mp hsome
    obtain ⟨d, hdel, hdlen, himage⟩ := deleteEntry_image us ws v b
    rw [← hb] at hdel hdlen
    refine ⟨{ env with data := d }, hdlen, ?_, ?_⟩
    · rwa [← hname, delete_append_cons hus]
    · simp only [reserved, List.mem_cons, List.not_mem_nil, or_false, not_or] at hr
      simp only [fwSetenv, hfw, Option.bind_some, hr.1, hr.2.1, or_self, if_false, hdel]
  · push Not at hv
    refine ⟨env, rfl, by rwa [delete_of_forall_ne hv], ?_⟩
    obtain ⟨nxt, hs⟩ := search_none b vs hn hv _ hlen
    rw [← hb] at hs
    obtain ⟨v', hfw, hnone⟩ := search_of_search hs
    obtain rfl : v' = none := by simpa using hnone
    simp only [fwSetenv, hfw, Option.bind_some]

theorem addEntry_overflow {env : EnvT} {vs : List Var} (h : image vs <+: env.data) (w : Var)
    {name : CStr} {args : List CStr} (ha : args ≠ []) (hw : w.entry = name ++ argBytes eqSign args)
    (hlt : env.data.length < (block vs).length + w.entry.length + 2) :
    addEntry env name args = some (-1, env) := by
  simp only [addEntry, if_neg ha, (append_image h w hw).1 hlt, Option.map_some]

theorem addEntry_set {env : EnvT} {vs : List Var} (h : image vs <+: env.data) (w : Var)
    {name : CStr} {args : List CStr} (ha : args ≠ []) (hw : w.entry = name ++ argBytes eqSign args)
    (hle : (block vs).length + w.entry.length + 2 ≤ env.data.length) :
    ∃ env', addEntry env name args = some (0, env') ∧ image (vs ++ [w]) <+: env'.data := by
  obtain ⟨d, happ, -, himage⟩ := (append_image h w hw).2 hle
  exact ⟨⟨crc32 0 d, d⟩, by simp only [addEntry, if_neg ha, happ, Option.map_some], himage⟩

/-- What an edit leaves on both sides: the same result and the same contents. -/
structure Agree (r : ℕ) (d : List UInt8) (r' : ℤ) (d' : List UInt8) : Prop where
  refused : r = 1 ↔ r' = -1
  done : r = 0 ↔ r' = 0
  same : contents d = contents d'

theorem addEntry_agrees {g : Globals} {env : EnvT} {vs : List Var} (hg : image vs <+: g.env.data)
    (henv : image vs <+: env.data) (hlen : env.data.length = g.env.data.length) {name : CStr}
    (hn : NulFree name) {args : List CStr} (ha : ∀ a ∈ args, NulFree a) :
    ∃ r g' r' env', define g name (args.map some) = some (r, g') ∧
      addEntry env name args = some (r', env') ∧ Agree r g'.env.data r' env'.data := by
  by_cases hargs : args = []
  · refine ⟨0, _, 0, _, define_dropped g name (by simp [hargs]), if_pos hargs, ?_⟩
    exact ⟨by decide, by decide, (contents_image hg).trans (contents_image henv).symm⟩
  · obtain ⟨w, hw, -⟩ := exists_newVar hn hargs ha
    by_cases hfit : g.env.data.length < (block vs).length + w.entry.length + 2
    · refine ⟨1, g, -1, env, define_overflow hg w hargs hw hfit,
        addEntry_overflow henv w hargs hw (hlen ▸ hfit), ?_⟩
      exact ⟨by decide, by decide, (contents_image hg).trans (contents_image henv).symm⟩
    · obtain ⟨g', hset, -, hg', -⟩ := define_set hg w hargs hw (Nat.not_lt.mp hfit)
      obtain ⟨env', hadd, henv'⟩ := addEntry_set henv w hargs hw (hlen ▸ Nat.not_lt.mp hfit)
      refine ⟨0, g', 0, env', hset, hadd, ?_⟩
      exact ⟨by decide, by decide, (contents_image hg').trans (contents_image henv').symm⟩

/-- Two writers of one environment: on the same contents in data areas of the same size the tool and
the boot loader make the same edit, refuse the same edits, and match names alike. -/
theorem fwSetenv_agrees (ca : ℕ → CStr → Bool) (g : Globals) (env : EnvT)
    (hg : WellFormed g.env.data) (hsame : contents env.data = contents g.env.data)
    (hlen : env.data.length = g.env.data.length) (name : CStr) (hn : NulFree name)
    (hr : name ∉ reserved) (args : List CStr) (ha : ∀ a ∈ args, NulFree a) :
    (∃ r g' r' env', doSetenv ca g name (args.map some) = some (r, g') ∧
      fwSetenv env name args = some (r', env') ∧ Agree r g'.env.data r' env'.data) ∧
    ∀ (d : List UInt8) (s1 : CStr) (i : ℕ),
      envmatch s1 (d.drop i) = (Nvedit.envmatch d s1 i).map (Option.map d.drop) := by
  refine ⟨?_, envmatch_drop⟩
  obtain ⟨vs, hd, himage⟩ := wellFormed_iff.mp hg
  have henv : image vs <+: env.data := by
    rw [← contents_image himage, ← hsame]
    exact contents_prefix _
  obtain ⟨g₁, hlen₁, himage₁, hset⟩ := doSetenv_free ca himage hn (args.map some) hd hr
  obtain ⟨env₁, hlen₂, henv₁, hfw⟩ := fwSetenv_free henv hn args hd hr
  rw [hset, hfw]
  exact addEntry_agrees himage₁ henv₁ (by omega) hn ha

/-- Two entries, in an area that may have old bytes behind the double NUL. -/
def twoEntries (rest : List UInt8) : List UInt8 := terminated [ascii "a=1", ascii "b=2"] ++ rest

theorem fwSetenv_agrees_delete_last :
    (∃ r g' r' env', doSetenv (fun _ _ ↦ false) (board (twoEntries (ascii "xyz"))) (ascii "b") [] =
        some (r, g') ∧
      fwSetenv ⟨0, twoEntries [0, 0, 0]⟩ (ascii "b") [] = some (r', env') ∧
      Agree r g'.env.data r' env'.data) ∧
    ∀ (d : List UInt8) (s1 : CStr) (i : ℕ),
      envmatch s1 (d.drop i) = (Nvedit.envmatch d s1 i).map (Option.map d.drop) := by
  have hwf : WellFormed (twoEntries (ascii "xyz")) :=
    ⟨[ascii "a=1", ascii "b=2"], by decide, by decide, by decide⟩
  have hsame : contents (twoEntries [0, 0, 0]) = contents (twoEntries (ascii "xyz")) := by decide
  exact fwSetenv_agrees _ (board (twoEntries (ascii "xyz"))) ⟨0, twoEntries [0, 0, 0]⟩ hwf hsame
    (by decide) (ascii "b") (by decide) (by decide) [] (by simp)

end UBoot.Tools.FwEnv
