import UBoot.Env.CrcCoherence

namespace UBoot.Env.Caches

open Lib.CString Layout Nvedit SetenvSpec Store CrcCoherence LibGeneric.Vsprintf

/-- `string_to_ip`; the CPU is big-endian, so that `htonl` changes nothing. -/
def stringToIp : Option CStr → UInt32
  | none => 0
  | some s => (parseNumbers 10 4 s).foldl (fun a v ↦ (a <<< 8) ||| (v &&& 0xff)) 0

/-- `sizeof(BootFile)`. -/
def bootFileSize : ℕ := 128

/-- The string `getenv` returns, `none` for `NULL`. -/
def value (g : Globals) (k : CStr) : Option CStr := (getenv g k).getD none

/-- The cached copies hold what the given values of the variables say. -/
structure Follows (g : Globals) (val : CStr → Option CStr) : Prop where
  ip : g.bi_ip_addr = stringToIp (val (ascii "ipaddr"))
  load : ∀ s, val (ascii "loadaddr") = some s → g.load_addr = (simpleStrtoul s 16).1
  boot : ∀ s, val (ascii "bootfile") = some s → g.bootFile = copyFilename s bootFileSize

def Coherent (g : Globals) : Prop := Follows g (value g)

/-- The variable a call names is followed by its first argument only. -/
def followed (c : Edit) (g : Globals) (k : CStr) : Option CStr :=
  if k = c.name then c.args.headD none else value g k

section Frame

variable {g g' : Globals}

/-- The cached copies are the same. -/
def SameCaches (g g' : Globals) : Prop :=
  g'.bi_ip_addr = g.bi_ip_addr ∧ g'.load_addr = g.load_addr ∧ g'.bootFile = g.bootFile

/-- The checks in front of a replacement change the baud rate only. -/
theorem permit_eq {ca : ℕ → CStr → Bool} {name : CStr} {args : List (Option CStr)}
    (h : permit ca g name args = some (some g')) : ∃ rate, g' = { g with baudrate := rate } := by
  unfold permit at h
  split at h
  · cases h
  split at h
  · split at h
    · cases h
    · obtain ⟨dev, -, hdev⟩ := Option.map_eq_some_iff.mp h
      split at hdev
      · cases hdev
        exact ⟨g.baudrate, rfl⟩
      · cases hdev
  · split at h
    · obtain ⟨text, -, htext⟩ := Option.map_eq_some_iff.mp h
      dsimp only at htext
      split at htext
      · cases htext
        exact ⟨_, rfl⟩
      · cases htext
    · cases h
      exact ⟨g.baudrate, rfl⟩

/-- A call that succeeds is `define` on the entries with other names, with the old caches. -/
theorem exists_define {ca : ℕ → CStr → Bool} {vs : List Var} (himage : image vs <+: g.env.data)
    (hd : Distinct vs) (c : Edit) (h : doSetenv ca g c.name c.args = some (0, g')) :
    ∃ g₁ : Globals, SameCaches g g₁ ∧ image (delete vs (entryName c.name)) <+: g₁.env.data ∧
      define g₁ c.name c.args = some (0, g') := by
  by_cases hv : ∃ v ∈ vs, v.name = entryName c.name
  · obtain ⟨d, -, hdel, hset⟩ := doSetenv_defined ca himage c.name_nulFree c.args hd hv
    rw [hset, Option.bind_eq_some_iff] at h
    obtain ⟨_ | g₁, hp, h⟩ := h
    · cases h
    · obtain ⟨rate, rfl⟩ := permit_eq hp
      exact ⟨({ g with baudrate := rate } : Globals).withData d, ⟨rfl, rfl, rfl⟩, hdel, h⟩
  · push Not at hv
    rw [doSetenv_undefined ca himage c.name_nulFree c.args hv] at h
    refine ⟨g, ⟨rfl, rfl, rfl⟩, ?_, h⟩
    rwa [delete_of_forall_ne hv]

theorem define_caches {name : CStr} {args : List (Option CStr)}
    (h : define g name args = some (0, g')) :
    (args.headD none = none ∧ SameCaches g g') ∨
      ∃ arg g₁, args.headD none = some arg ∧ SameCaches g g₁ ∧ g' = updateCaches g₁ name arg := by
  match args, h with
  | [], h =>
    cases h
    exact Or.inl ⟨rfl, rfl, rfl, rfl⟩
  | none :: _, h =>
    cases h
    exact Or.inl ⟨rfl, rfl, rfl, rfl⟩
  | some arg :: rest, h =>
    simp only [define, Option.map_eq_some_iff] at h
    obtain ⟨_ | d, -, heq⟩ := h
    · cases heq
    · cases heq
      exact Or.inr ⟨arg, envCrcUpdate (g.withData d), rfl, ⟨rfl, rfl, rfl⟩, rfl⟩

end Frame

section Update

variable (g : Globals) (name arg : CStr)

theorem updateCaches_ip : (updateCaches g name arg).bi_ip_addr =
    if name = ascii "ipaddr" then stringToIp (some arg) else g.bi_ip_addr := by
  by_cases h : name = ascii "ipaddr"
  · subst h
    rfl
  · rw [updateCaches, if_neg h, if_neg h]
    split_ifs <;> rfl

theorem updateCaches_load : (updateCaches g name arg).load_addr =
    if name = ascii "loadaddr" then (simpleStrtoul arg 16).1 else g.load_addr := by
  by_cases h : name = ascii "loadaddr"
  · subst h
    rfl
  · rw [updateCaches, if_neg h, if_neg h]
    split_ifs <;> rfl

theorem updateCaches_boot : (updateCaches g name arg).bootFile =
    if name = ascii "bootfile" then copyFilename arg bootFileSize else g.bootFile := by
  by_cases h : name = ascii "bootfile"
  · subst h
    rfl
  · rw [updateCaches, if_neg h, if_neg h]
    split_ifs <;> rfl

end Update

section Call

variable {ca : ℕ → CStr → Bool} {g g' : Globals} {c : Edit} (hg : WellFormed g.env.data)
variable (hname : eqSign ∉ c.name) (h : doSetenv ca g c.name c.args = some (0, g'))

include hg hname h

theorem value_of_ne {k : CStr} (hk : NulFree k) (he : eqSign ∉ k) (hne : k ≠ c.name) :
    value g' k = value g k := by
  have hself : entryName c.name = c.name := entryName_self fun x hx hh ↦ hname (hh ▸ hx)
  have hkself : entryName k = k := entryName_self fun x hx hh ↦ he (hh ▸ hx)
  obtain ⟨vs, hd, himage⟩ := wellFormed_iff.mp hg
  obtain ⟨g₁, -, hdel, hdef⟩ := exists_define himage hd c h
  rw [hself] at hdel
  have hold : lookup (delete vs c.name) k = lookup vs k := lookup_delete_ne hne
  rw [value, value, getenv_image himage hk, hkself]
  obtain rfl | ⟨-, rfl, -⟩ | ⟨w, hw, hw', -⟩ := define_cases hdel c hdef
  · rw [getenv_image (g := envCrcUpdate g₁) hdel hk, hkself, hold]
  · rw [getenv_image hdel hk, hkself, hold]
  · have hwk : ∀ v ∈ [w], v.name ≠ k := by
      intro v hv
      rw [List.mem_singleton.mp hv, hw, hself]
      exact hne.symm
    rw [getenv_image hw' hk, hkself, lookup_append_left hwk, hold]

theorem value_name (hone : c.args.length ≤ 1) : value g' c.name = c.args.headD none := by
  have hself : entryName c.name = c.name := entryName_self fun x hx hh ↦ hname (hh ▸ hx)
  obtain ⟨vs, hd, himage⟩ := wellFormed_iff.mp hg
  obtain ⟨g₁, -, hdel, hdef⟩ := exists_define himage hd c h
  rw [hself] at hdel
  have hgone : ∀ v ∈ delete vs c.name, v.name ≠ c.name := hd.delete_ne c.name
  rw [value]
  by_cases ha : c.args.headD none = none
  · rw [define_dropped g₁ c.name ha] at hdef
    cases hdef
    rw [getenv_image (g := envCrcUpdate g₁) hdel c.name_nulFree, hself, lookup_eq_none hgone, ha]
    rfl
  · obtain ⟨arg, hargs⟩ : ∃ arg, c.args = [some arg] := by
      match hc : c.args, ha, hone with
      | [some arg], _, _ => exact ⟨arg, rfl⟩
      | [none], ha, _ => exact absurd rfl ha
    have harg : NulFree arg := c.args_nulFree arg (by rw [hargs]; exact List.mem_singleton_self _)
    obtain ⟨w, hw, hwn, hwv⟩ := exists_newVar c.name_nulFree (List.cons_ne_nil arg [])
      (by simpa using harg)
    have hdef' : define g₁ c.name ([arg].map some) = some (0, g') := by
      rw [← hdef, hargs]
      rfl
    by_cases hfit : g₁.env.data.length < (block (delete vs c.name)).length + w.entry.length + 2
    · rw [define_overflow hdel w (List.cons_ne_nil arg []) hw hfit] at hdef'
      cases hdef'
    · obtain ⟨g₂, hset, -, himage₂, -⟩ :=
        define_set hdel w (List.cons_ne_nil arg []) hw (Nat.not_lt.mp hfit)
      rw [hset] at hdef'
      cases hdef'
      rw [getenv_image himage₂ c.name_nulFree, hself, lookup_append_of_forall_ne hgone,
        ← hself, ← hwn, lookup_cons_self, hwv hname, hargs]
      simp [joined]

theorem follows (hc : Coherent g)
    (hdel : c.name = ascii "ipaddr" → c.args.headD none ≠ none) : Follows g' (followed c g') := by
  obtain ⟨vs, hd, himage⟩ := wellFormed_iff.mp hg
  obtain ⟨g₁, hsame, -, hdef⟩ := exists_define himage hd c h
  have hother {k : CStr} (hk : NulFree k) (he : eqSign ∉ k) (hne : c.name ≠ k) :
      followed c g' k = value g k := by
    rw [followed, if_neg hne.symm, value_of_ne hg hname h hk he hne.symm]
  obtain ⟨hnone, hsame'⟩ | ⟨arg, g₂, harg, hsame', rfl⟩ := define_caches hdef
  · have hset {k s : CStr} (hk : NulFree k) (he : eqSign ∉ k) (hs : followed c g' k = some s) :
        value g k = some s := by
      by_cases hn : c.name = k
      · rw [followed, if_pos hn.symm, hnone] at hs
        cases hs
      · rwa [hother hk he hn] at hs
    have hip : c.name ≠ ascii "ipaddr" := fun hn ↦ hdel hn hnone
    constructor
    · rw [hsame'.1, hsame.1, hother (by decide) (by decide) hip]
      exact hc.ip
    · intro s hs
      rw [hsame'.2.1, hsame.2.1]
      exact hc.load s (hset (by decide) (by decide) hs)
    · intro s hs
      rw [hsame'.2.2, hsame.2.2]
      exact hc.boot s (hset (by decide) (by decide) hs)
  · constructor
    · rw [updateCaches_ip]
      split_ifs with hn
      · rw [followed, if_pos hn.symm, harg]
      · rw [hsame'.1, hsame.1, hother (by decide) (by decide) hn]
        exact hc.ip
    · intro s hs
      rw [updateCaches_load]
      split_ifs with hn
      · rw [followed, if_pos hn.symm, harg] at hs
        cases hs
        rfl
      · rw [hsame'.2.1, hsame.2.1]
        rw [hother (by decide) (by decide) hn] at hs
        exact hc.load s hs
    · intro s hs
      rw [updateCaches_boot]
      split_ifs with hn
      · rw [followed, if_pos hn.symm, harg] at hs
        cases hs
        rfl
      · rw [hsame'.2.2, hsame.2.2]
        rw [hother (by decide) (by decide) hn] at hs
        exact hc.boot s hs

end Call

/-- From a coherent state a successful call, other than a deletion of `ipaddr`, leaves each cached
copy in step with its variable; when the call sets the variable itself, the copy follows the first
of the value arguments, and so the variable when there is only one. -/
theorem caches_follow (ca : ℕ → CStr → Bool) (g g' : Globals) (c : Edit)
    (hg : WellFormed g.env.data) (hc : Coherent g) (hname : eqSign ∉ c.name)
    (hdel : c.name = ascii "ipaddr" → c.args.headD none ≠ none)
    (h : doSetenv ca g c.name c.args = some (0, g')) :
    Follows g' (followed c g') ∧ (c.args.length ≤ 1 → Coherent g') := by
  have hfollows := follows hg hname h hc hdel
  refine ⟨hfollows, fun hone ↦ ?_⟩
  have heq : followed c g' = value g' := by
    funext k
    rw [followed]
    split_ifs with hk
    · rw [hk, value_name hg hname h hone]
    · rfl
  rwa [heq] at hfollows

/-- A board with an address and its cached copy. -/
def homeBoard : Globals :=
  { board (terminated [ascii "ipaddr=10.0.0.1"] ++ List.replicate 32 0) with
    bi_ip_addr := 0x0a000001 }

theorem homeBoard_wellFormed : WellFormed homeBoard.env.data :=
  ⟨[ascii "ipaddr=10.0.0.1"], by decide, by decide, by decide⟩

theorem homeBoard_coherent : Coherent homeBoard := by
  have hip : homeBoard.bi_ip_addr = stringToIp (value homeBoard (ascii "ipaddr")) := by
    decide +kernel
  have hload : value homeBoard (ascii "loadaddr") = none := by decide +kernel
  have hboot : value homeBoard (ascii "bootfile") = none := by decide +kernel
  constructor
  · exact hip
  · simp [hload]
  · simp [hboot]

/-- `setenv ipaddr` with the given words. -/
def setIp (words : List CStr) (h : ∀ a ∈ words, NulFree a) : Edit where
  name := ascii "ipaddr"
  args := words.map some
  name_nulFree := by decide
  args_nulFree a ha := h a (by simpa using ha)

theorem caches_follow_home :
    ∃ g', doSetenv (fun _ _ ↦ false) homeBoard (ascii "ipaddr") [some (ascii "10.0.0.2")] =
      some (0, g') ∧ Coherent g' := by
  have hret : (doSetenv (fun _ _ ↦ false) homeBoard (ascii "ipaddr")
      [some (ascii "10.0.0.2")]).map (·.1) = some 0 := by
    decide +kernel
  obtain ⟨⟨r, g'⟩, hrun, rfl⟩ := Option.map_eq_some_iff.mp hret
  have hcall := caches_follow (fun _ _ ↦ false) homeBoard g'
    (setIp [ascii "10.0.0.2"] (by decide)) homeBoard_wellFormed homeBoard_coherent (by decide)
    (by decide) hrun
  exact ⟨g', hrun, hcall.2 (by decide)⟩

theorem incoherent_of_ip {name : CStr} {args : List (Option CStr)}
    (h : (doSetenv (fun _ _ ↦ false) homeBoard name args).map (fun r ↦
      (r.1, decide (r.2.bi_ip_addr = stringToIp (value r.2 (ascii "ipaddr"))))) =
        some (0, false)) :
    ∃ g', doSetenv (fun _ _ ↦ false) homeBoard name args = some (0, g') ∧ ¬ Coherent g' := by
  obtain ⟨⟨r, g'⟩, hrun, heq⟩ := Option.map_eq_some_iff.mp h
  simp only [Prod.mk.injEq, decide_eq_false_iff_not] at heq
  obtain ⟨rfl, hne⟩ := heq
  exact ⟨g', hrun, fun hcoherent ↦ hne hcoherent.ip⟩

/-- With two words the variable becomes `10.0 0.1`, which reads as 10.0.0.1, and the copy 10.0.0.0;
a deletion leaves the copy, and a name with `=` in it changes `ipaddr` without the copy. -/
theorem caches_two_words :
    WellFormed homeBoard.env.data ∧ Coherent homeBoard ∧
    (∃ g', doSetenv (fun _ _ ↦ false) homeBoard (ascii "ipaddr")
      [some (ascii "10.0"), some (ascii "0.1")] = some (0, g') ∧ ¬ Coherent g') ∧
    (∃ g', doSetenv (fun _ _ ↦ false) homeBoard (ascii "ipaddr") [] = some (0, g') ∧
      ¬ Coherent g') ∧
    ∃ g', doSetenv (fun _ _ ↦ false) homeBoard (ascii "ipaddr=10.0.0.9") [some (ascii "x")] =
      some (0, g') ∧ ¬ Coherent g' := by
  refine ⟨homeBoard_wellFormed, homeBoard_coherent, ?_, ?_, ?_⟩
  · exact incoherent_of_ip (by decide +kernel)
  · exact incoherent_of_ip (by decide +kernel)
  · exact incoherent_of_ip (by decide +kernel)

end UBoot.Env.Caches
