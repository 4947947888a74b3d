import UBoot.Env.SetenvSpec

namespace UBoot.Env.Store

open Lib.CString Layout Nvedit SetenvSpec LibGeneric.Crc32

theorem length_le_block (vs : List Var) : vs.length ≤ (block vs).length := by
  induction vs with
  | nil => simp
  | cons v vs ih =>
    simp only [block_cons, List.length_append, List.length_cons]
    omega

theorem length_lt_of_image {vs : List Var} {d : List UInt8} (h : image vs <+: d) :
    vs.length < d.length + 1 := by
  obtain ⟨b, rfl⟩ := exists_block_of_image h
  have := length_le_block vs
  simp only [List.length_append, List.length_cons]
  omega

theorem entryEnd_of_strlen {size : ℕ} {cs : List UInt8} {i n : ℕ} (h : strlen cs = some n)
    (hi : i + cs.length ≤ size) : entryEnd size cs i = some (some (i + n)) := by
  induction cs generalizing i n with
  | nil => cases h
  | cons c cs ih =>
    simp only [List.length_cons] at hi
    by_cases hc : c = 0
    · simp only [strlen, if_pos hc, Option.some_inj] at h
      simp [entryEnd, hc, ← h]
    · simp only [strlen, if_neg hc, Option.map_eq_some_iff] at h
      obtain ⟨m, hm, rfl⟩ := h
      rw [entryEnd, if_neg hc, if_neg (by omega), ih hm (by omega)]
      congr 2
      omega

theorem getenvFrom_image (a b : List UInt8) (vs : List Var) {name : CStr} (hn : NulFree name)
    (fuel : ℕ) (hf : vs.length < fuel) :
    getenvFrom (a ++ (block vs ++ 0 :: b)) name fuel a.length =
      some (lookup vs (entryName name)) := by
  induction vs generalizing a fuel with
  | nil =>
    obtain _ | fuel := fuel
    · simp at hf
    · simp [getenvFrom, lookup]
  | cons v vs ih =>
    obtain _ | fuel := fuel
    · simp at hf
    obtain ⟨c, hc, hpeek⟩ := peek_entry a (block vs ++ 0 :: b) v
    have hd : a ++ (block (v :: vs) ++ 0 :: b) = a ++ (v.entry ++ 0 :: (block vs ++ 0 :: b)) := by
      simp
    have hsize : a.length + (v.entry ++ 0 :: (block vs ++ 0 :: b)).length ≤
        (a ++ (v.entry ++ 0 :: (block vs ++ 0 :: b))).length + envHeaderSize := by
      simp only [List.length_append]
      omega
    have hend := entryEnd_of_strlen (strlen_append _ (block vs ++ 0 :: b) v.entry_nulFree) hsize
    rw [hd]
    simp only [getenvFrom, hpeek, Option.bind_some, if_neg hc, drop_length_append, hend,
      envmatch_entry a (block vs ++ 0 :: b) v hn]
    by_cases hv : v.name = entryName name
    · simp only [if_pos hv]
      have hval : (a ++ (v.entry ++ 0 :: (block vs ++ 0 :: b))).drop (a.length + v.name.length + 1) =
          v.value ++ 0 :: (block vs ++ 0 :: b) := by
        simp [Var.entry, Nat.add_assoc]
      rw [hval, load_append _ _ v.value_ok, ← hv, lookup_cons_self]
      rfl
    · simp only [if_neg hv]
      have hr := ih (a ++ (v.entry ++ [0])) fuel (by simpa using hf)
      simp only [List.append_assoc, List.cons_append, List.nil_append, List.length_append,
        List.length_cons, List.length_nil, Nat.zero_add] at hr
      rw [lookup_cons_ne hv, Nat.add_assoc, hr]

theorem getenv_image {g : Globals} {vs : List Var} (h : image vs <+: g.env.data) {name : CStr}
    (hn : NulFree name) : getenv g name = some (lookup vs (entryName name)) := by
  have hl := length_lt_of_image h
  obtain ⟨b, hb⟩ := exists_block_of_image h
  rw [getenv]
  have hr := getenvFrom_image [] b vs hn (g.env.data.length + 1) hl
  simpa [← hb] using hr

theorem argBytes_nulFree {sep : UInt8} (hs : sep ≠ 0) {args : List CStr}
    (h : ∀ a ∈ args, NulFree a) : NulFree (argBytes sep args) := by
  induction args generalizing sep with
  | nil => simp [argBytes, NulFree]
  | cons a as ih =>
    intro c hc
    simp only [argBytes, List.mem_cons, List.mem_append] at hc
    obtain rfl | hc | hc := hc
    · exact hs
    · exact h a (by simp) c hc
    · exact ih (by decide) (fun x hx ↦ h x (by simp [hx])) c hc

theorem exists_newVar {name : CStr} (hn : NulFree name) {args : List CStr} (ha : args ≠ [])
    (hargs : ∀ a ∈ args, NulFree a) :
    ∃ w : Var, w.entry = name ++ argBytes eqSign args ∧ w.name = entryName name ∧
      (eqSign ∉ name → w.value = joined args) := by
  obtain ⟨a, as, rfl⟩ := List.exists_cons_of_ne_nil ha
  have hb := argBytes_nulFree (by decide : eqSign ≠ 0) hargs
  have hnf : NulFree (name ++ argBytes eqSign (a :: as)) := by
    intro c hc
    obtain h | h := List.mem_append.mp hc
    · exact hn c h
    · exact hb c h
  rw [argBytes_cons] at hnf ⊢
  obtain ⟨w, hw, hwn⟩ := exists_var hnf (by simp)
  refine ⟨w, hw, by rw [hwn, entryName_append_eqSign], fun hname ↦ ?_⟩
  have hself : entryName name = name := entryName_self (fun c hc h ↦ hname (h ▸ hc))
  rw [Var.entry, hwn, entryName_append_eqSign, hself] at hw
  simpa using List.append_cancel_left hw

@[simp] theorem withData_data (g : Globals) (d : List UInt8) : (g.withData d).env.data = d := rfl

@[simp] theorem envCrcUpdate_data (g : Globals) : (envCrcUpdate g).env.data = g.env.data := rfl

@[simp] theorem updateCaches_env (g : Globals) (name arg : CStr) :
    (updateCaches g name arg).env = g.env := by
  simp only [updateCaches]
  split_ifs <;> rfl

/-- The names that are not free to be redefined. -/
def reserved : List CStr :=
  [ascii "ethaddr", ascii "serial#", ascii "stdin", ascii "stdout", ascii "stderr",
    ascii "baudrate"]

theorem permit_free {name : CStr} (h : name ∉ reserved) (ca : ℕ → CStr → Bool) (g : Globals)
    (args : List (Option CStr)) : permit ca g name args = some (some g) := by
  simp only [reserved, List.mem_cons, List.not_mem_nil, or_false, not_or] at h
  obtain ⟨h₁, h₂, h₃, h₄, h₅, h₆⟩ := h
  simp [permit, consoleOf, h₁, h₂, h₃, h₄, h₅, h₆]

theorem define_dropped (g : Globals) (name : CStr) {args : List (Option CStr)}
    (h : args.headD none = none) : define g name args = some (0, envCrcUpdate g) := by
  match args, h with
  | [], _ => rfl
  | none :: _, _ => rfl

theorem define_overflow {g : Globals} {vs : List Var} (h : image vs <+: g.env.data) (w : Var)
    {name : CStr} {args : List CStr} (ha : args ≠ []) (hw : w.entry = name ++ argBytes eqSign args)
    (hlt : g.env.data.length < (block vs).length + w.entry.length + 2) :
    define g name (args.map some) = some (1, g) := by
  obtain ⟨a, as, rfl⟩ := List.exists_cons_of_ne_nil ha
  have happ := (append_image h w hw).1 hlt
  rw [List.map_cons] at happ ⊢
  simp only [define, happ, Option.map_some]

theorem define_set {g : Globals} {vs : List Var} (h : image vs <+: g.env.data) (w : Var)
    {name : CStr} {args : List CStr} (ha : args ≠ []) (hw : w.entry = name ++ argBytes eqSign args)
    (hle : (block vs).length + w.entry.length + 2 ≤ g.env.data.length) :
    ∃ g', define g name (args.map some) = some (0, g') ∧
      g'.env.data.length = g.env.data.length ∧ image (vs ++ [w]) <+: g'.env.data ∧
      g'.env.crc = crc32 0 g'.env.data := by
  obtain ⟨a, as, rfl⟩ := List.exists_cons_of_ne_nil ha
  obtain ⟨d, happ, hlen, himage⟩ := (append_image h w hw).2 hle
  rw [List.map_cons] at happ ⊢
  refine ⟨updateCaches (envCrcUpdate (g.withData d)) name a, ?_, ?_, ?_, ?_⟩
  · simp only [define, happ, Option.map_some]
  · simpa using hlen
  · simpa using himage
  · simp [envCrcUpdate]

theorem exists_split {vs : List Var} (hd : Distinct vs) {k : CStr} (hv : ∃ v ∈ vs, v.name = k) :
    ∃ v us ws, vs = us ++ v :: ws ∧ v.name = k ∧ ∀ u ∈ us, u.name ≠ v.name := by
  obtain ⟨v, hmem, hname⟩ := hv
  obtain ⟨us, ws, rfl⟩ := List.append_of_mem hmem
  refine ⟨v, us, ws, rfl, hname, fun u hu hne ↦ ?_⟩
  rw [Distinct, List.map_append, List.nodup_append] at hd
  exact hd.2.2 u.name (List.mem_map.mpr ⟨u, hu, rfl⟩) v.name (by simp) hne

/-- A board right after a boot that loaded the data `d`. -/
def board (d : List UInt8) : Globals where
  env := { crc := crc32 0 d, data := d }
  baudrate := 115200
  bi_enetaddr := List.replicate 6 0
  bi_ip_addr := 0
  load_addr := 0x81000000
  bootFile := []

variable (ca : ℕ → CStr → Bool) {g : Globals} {vs : List Var} {name : CStr}
variable (h : image vs <+: g.env.data) (hn : NulFree name) (args : List (Option CStr))

include h hn

theorem doSetenv_undefined (hv : ∀ v ∈ vs, v.name ≠ entryName name) :
    doSetenv ca g name args = define g name args := by
  obtain ⟨b, hb⟩ := exists_block_of_image h
  obtain ⟨nxt, hs⟩ := search_none b vs hn hv _ (length_lt_of_image h)
  rw [← hb] at hs
  simp only [doSetenv, hs, Option.bind_some]

theorem doSetenv_defined (hd : Distinct vs) (hv : ∃ v ∈ vs, v.name = entryName name) :
    ∃ d, d.length = g.env.data.length ∧ image (delete vs (entryName name)) <+: d ∧
      doSetenv ca g name args = (permit ca g name args).bind fun
        | none => some (1, g)
        | some g' => define (g'.withData d) name args := by
  obtain ⟨v, us, ws, rfl, hname, hus⟩ := exists_split hd hv
  obtain ⟨b, hb⟩ := exists_block_of_image h
  have hlen := length_lt_of_image h
  simp only [List.length_append, List.length_cons] at hlen
  obtain ⟨val, hs⟩ := search_some b us ws v hn (hname ▸ hus) hname (g.env.data.length + 1) (by omega)
  obtain ⟨d, hdel, hdlen, himage⟩ := deleteEntry_image us ws v b
  rw [← hb] at hs hdel hdlen
  refine ⟨d, hdlen, ?_, ?_⟩
  · rwa [← hname, delete_append_cons hus]
  · rw [doSetenv, hs]
    refine congrArg (Option.bind (permit ca g name args)) (funext fun g' ↦ ?_)
    cases g' with
    | none => rfl
    | some g' =>
      change (deleteEntry _ _ _).bind _ = _
      rw [hdel, Option.bind_some]

/-- Behind the deletion of an old definition, a call with a free name is `define`. -/
theorem doSetenv_free (hd : Distinct vs) (hr : name ∉ reserved) :
    ∃ g₁ : Globals, g₁.env.data.length = g.env.data.length ∧
      image (delete vs (entryName name)) <+: g₁.env.data ∧
      doSetenv ca g name args = define g₁ name args := by
  by_cases hv : ∃ v ∈ vs, v.name = entryName name
  · obtain ⟨d, hlen, himage, hrun⟩ := doSetenv_defined ca h hn args hd hv
    refine ⟨g.withData d, hlen, himage, ?_⟩
    rw [hrun, permit_free hr]
    rfl
  · push Not at hv
    refine ⟨g, rfl, by rwa [delete_of_forall_ne hv], ?_⟩
    exact doSetenv_undefined ca h hn args hv

end UBoot.Env.Store
