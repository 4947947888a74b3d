import Mathlib
import UBoot.Env.Caches

namespace UBoot.Env.BootCommand

open Lib.CString Layout Nvedit SetenvSpec Store CrcCoherence Caches LibGeneric.Crc32

/-- `CONFIG_BOOTCOMMAND` of `ap81.h`. -/
def configBootcommand : CStr := ascii "bootm 0xbf030000"

/-- The value `main_loop` gives `bootcmd` when it is not set; `CONFIG_ROOTFS_FLASH` is not defined
for this board. -/
def defaultBootcmd : CStr := ascii "tftpboot 0x8022c090 uImage; bootm 0x8022c090"

def bootcmd : CStr := ascii "bootcmd"

/-- The pointer `getenv` returns, as an index of the data; `getenv` reads the string there. -/
def getenvPtr (d : List UInt8) (name : CStr) : ℕ → ℕ → Option (Option ℕ)
  | 0, _ => none
  | fuel + 1, i => d[i]?.bind fun c ↦
    if c = 0 then some none
    else (entryEnd (d.length + envHeaderSize) (d.drop i) i).bind fun
      | none => some none
      | some nxt => (envmatch d name i).bind fun
        | none => getenvPtr d name fuel (nxt + 1)
        | some val => some (some val)

/-- `if (!s) setenv ("bootcmd", ...)`. -/
def setDefault (ca : ℕ → CStr → Bool) (g : Globals) : Option ℕ → Option Globals
  | some _ => some g
  | none => (doSetenv ca g bootcmd [some defaultBootcmd]).map Prod.snd

/-- `strcpy (s, CONFIG_BOOTCOMMAND)`. For `NULL` it stores at address 0, which is not in the
environment; `none` is a store behind the data. -/
def overwrite (g : Globals) : Option ℕ → Option Globals
  | none => some g
  | some s => (store g.env.data s configBootcommand).map fun r ↦ g.withData r.1

/-- What `main_loop` does to the environment from `getenv ("bootcmd")` up to the `strcpy` behind the
boot delay, when the autoboot in between is stopped or changes no variable. -/
def mainLoop (ca : ℕ → CStr → Bool) (g : Globals) : Option Globals :=
  (getenvPtr g.env.data bootcmd (g.env.data.length + 1) 0).bind fun s ↦
    (setDefault ca g s).bind fun g₁ ↦
      (getenvPtr g₁.env.data bootcmd (g₁.env.data.length + 1) 0).bind fun s ↦ overwrite g₁ s

/-- The environment behind the `strcpy` against the one at the start. -/
structure Intact (g g' : Globals) : Prop where
  wellFormed : WellFormed g'.env.data
  others : ∀ k, NulFree k → eqSign ∉ k → k ≠ bootcmd → value g' k = value g k
  crc_eq : g'.env.crc = crc32 0 g'.env.data

theorem getenvFrom_eq (d : List UInt8) (name : CStr) (fuel i : ℕ) :
    getenvFrom d name fuel i = (getenvPtr d name fuel i).bind fun
      | none => some none
      | some val => (load (d.drop val)).map some := by
  induction fuel generalizing i with
  | zero => rfl
  | succ fuel ih =>
    rw [getenvFrom, getenvPtr, Option.bind_assoc]
    congr 1
    funext c
    split_ifs with hc
    · rfl
    · rw [Option.bind_assoc]
      congr 1
      funext nxt
      cases nxt with
      | none => rfl
      | some nxt =>
        simp only
        rw [Option.bind_assoc]
        congr 1
        funext val
        cases val with
        | none => exact ih _
        | some val => rfl

/-- Where the value of a variable starts, for entries that start at `pos`. -/
def position (k : CStr) : ℕ → List Var → Option ℕ
  | _, [] => none
  | pos, v :: vs =>
    if v.name = k then some (pos + v.name.length + 1)
    else position k (pos + v.entry.length + 1) vs

theorem position_eq_none {k : CStr} {vs : List Var} (h : ∀ v ∈ vs, v.name ≠ k) (pos : ℕ) :
    position k pos vs = none := by
  induction vs generalizing pos with
  | nil => rfl
  | cons v vs ih =>
    rw [position, if_neg (h v List.mem_cons_self)]
    exact ih (fun u hu ↦ h u (List.mem_cons_of_mem v hu)) _

theorem position_append {us ws : List Var} {w : Var} (h : ∀ u ∈ us, u.name ≠ w.name) (pos : ℕ) :
    position w.name pos (us ++ w :: ws) = some (pos + (block us).length + w.name.length + 1) := by
  induction us generalizing pos with
  | nil => simp [position]
  | cons u us ih =>
    rw [List.cons_append, position, if_neg (h u List.mem_cons_self),
      ih (fun x hx ↦ h x (List.mem_cons_of_mem u hx))]
    simp only [block_cons, List.length_append, List.length_cons, Option.some.injEq]
    omega

theorem getenvPtr_block (a b : List UInt8) (vs : List Var) {name : CStr} (hn : NulFree name)
    (fuel : ℕ) (hf : vs.length < fuel) :
    getenvPtr (a ++ (block vs ++ 0 :: b)) name fuel a.length =
      some (position (entryName name) a.length vs) := by
  induction vs generalizing a fuel with
  | nil =>
    obtain _ | fuel := fuel
    · simp at hf
    · simp [getenvPtr, position]
  | cons v vs ih =>
    obtain _ | fuel := fuel
    · simp at hf
    obtain ⟨c, hc, hpeek⟩ := peek_entry a (block vs ++ 0 :: b) v
    have hd : a ++ (block (v :: vs) ++ 0 :: b) = a ++ (v.entry ++ 0 :: (block vs ++ 0 :: b)) := by
      simp
    have hsize : a.length + (v.entry ++ 0 :: (block vs ++ 0 :: b)).length ≤
        (a ++ (v.entry ++ 0 :: (block vs ++ 0 :: b))).length + envHeaderSize := by
      simp only [List.length_append]
      omega
    have hend := entryEnd_of_strlen (strlen_append _ (block vs ++ 0 :: b) v.entry_nulFree) hsize
    rw [hd]
    simp only [getenvPtr, hpeek, Option.bind_some, if_neg hc, drop_length_append, hend,
      envmatch_entry a (block vs ++ 0 :: b) v hn, position]
    by_cases hv : v.name = entryName name
    · simp only [if_pos hv]
    · simp only [if_neg hv]
      have hr := ih (a ++ (v.entry ++ [0])) fuel (by simpa using hf)
      simp only [List.append_assoc, List.cons_append, List.nil_append, List.length_append,
        List.length_cons, List.length_nil, Nat.zero_add] at hr
      rw [Nat.add_assoc, hr]

theorem getenvPtr_image {vs : List Var} {d : List UInt8} (h : image vs <+: d) :
    getenvPtr d bootcmd (d.length + 1) 0 = some (position bootcmd 0 vs) := by
  have hl := length_lt_of_image h
  obtain ⟨b, hb⟩ := exists_block_of_image h
  have hname : NulFree bootcmd := by decide
  have hself : entryName bootcmd = bootcmd := rfl
  have hr := getenvPtr_block [] b vs hname (d.length + 1) hl
  simpa only [List.nil_append, ← hb, hself, List.length_nil] using hr

/-- The bytes in front of a text to be read are those of whole entries. -/
theorem exists_rest {xs zs : List Var} {t b : List UInt8} (h : block xs ++ 0 :: b = block zs ++ t) :
    (∃ ws, xs = zs ++ ws ∧ t = block ws ++ 0 :: b) := by
  induction zs generalizing xs with
  | nil => exact ⟨xs, rfl, h.symm⟩
  | cons z zs ih =>
    cases xs with
    | nil =>
      obtain ⟨c, e, he⟩ := List.exists_cons_of_ne_nil z.entry_ne_nil
      rw [block_cons, he] at h
      exact absurd (List.cons.inj h).1.symm (z.entry_nulFree c (by simp [he]))
    | cons x xs =>
      rw [block_cons, block_cons, List.append_assoc, List.append_assoc] at h
      obtain ⟨he, hr⟩ := append_nul_inj x.entry_nulFree z.entry_nulFree h
      obtain ⟨ws, rfl, ht⟩ := ih hr
      exact ⟨ws, by rw [Var.entry_injective he]; rfl, ht⟩

theorem lookup_eq_some_iff {vs : List Var} (h : Distinct vs) {k v : CStr} :
    lookup vs k = some v ↔ ∃ u ∈ vs, u.name = k ∧ u.value = v := by
  rw [lookup, Option.map_eq_some_iff]
  constructor
  · rintro ⟨u, hu, rfl⟩
    exact ⟨u, List.mem_of_find?_eq_some hu, by simpa using List.find?_some hu, rfl⟩
  · rintro ⟨u, hu, rfl, rfl⟩
    obtain ⟨us, ws, rfl⟩ := List.append_of_mem hu
    have hne : ∀ x ∈ us, x.name ≠ u.name := by
      intro x hx
      rw [Distinct, List.map_append, List.nodup_append] at h
      exact h.2.2 x.name (List.mem_map_of_mem hx) u.name (by simp)
    refine ⟨u, ?_, rfl⟩
    rw [List.find?_append, List.find?_eq_none.mpr (by simpa using hne)]
    simp

/-- The text `t` starts with the given variables, in some order, and a terminator. -/
def Reads (t : List UInt8) (ws : List Var) : Prop :=
  ∃ ws' b, t = block ws' ++ 0 :: b ∧ ws'.Perm ws

theorem block_eq_nul {ws : List Var} {a b : List UInt8} (h : 0 :: a = block ws ++ 0 :: b) :
    ws = [] := by
  cases ws with
  | nil => rfl
  | cons w ws =>
    obtain ⟨c, e, he⟩ := List.exists_cons_of_ne_nil w.entry_ne_nil
    rw [block_cons, he] at h
    exact absurd (List.cons.inj h).1.symm (w.entry_nulFree c (by simp [he]))

/-- The value of `bootcmd` can be overwritten: it is as long as the new text, or one byte longer and
the last one, or shorter and the bytes behind the new text happen to read as the variables that
follow. -/
def Fits (v : CStr) (ws : List Var) (b : List UInt8) : Prop :=
  v.length = configBootcommand.length ∨
  (v.length = configBootcommand.length + 1 ∧ ws = []) ∨
  (v.length < configBootcommand.length ∧
    Reads ((v ++ 0 :: (block ws ++ 0 :: b)).drop (configBootcommand.length + 1)) ws)

theorem reads_iff_fits {v : CStr} (hv : NulFree v) (ws : List Var) (b : List UInt8) :
    Reads ((v ++ 0 :: (block ws ++ 0 :: b)).drop (configBootcommand.length + 1)) ws ↔
      Fits v ws b := by
  generalize hn : configBootcommand.length = n
  simp only [Fits, hn]
  obtain hlt | heq | hgt := Nat.lt_trichotomy v.length n
  · have h₁ : v.length ≠ n := by omega
    have h₂ : v.length ≠ n + 1 := by omega
    simp [h₁, h₂, hlt]
  · have hdrop : (v ++ 0 :: (block ws ++ 0 :: b)).drop (n + 1) = block ws ++ 0 :: b := by
      rw [← heq, ← List.singleton_append, ← List.append_assoc]
      exact List.drop_left' (by simp)
    rw [hdrop]
    exact iff_of_true ⟨ws, b, rfl, List.Perm.refl ws⟩ (Or.inl heq)
  · have hdrop : (v ++ 0 :: (block ws ++ 0 :: b)).drop (n + 1) =
        v.drop (n + 1) ++ 0 :: (block ws ++ 0 :: b) := List.drop_append_of_le_length hgt
    rw [hdrop]
    have h₁ : v.length ≠ n := by omega
    have h₂ : ¬ v.length < n := by omega
    simp only [h₁, h₂, false_and, false_or, or_false]
    cases htail : v.drop (n + 1) with
    | nil =>
      have hlen : v.length = n + 1 := by
        have := congrArg List.length htail
        rw [List.length_drop, List.length_nil] at this
        omega
      constructor
      · rintro ⟨ws', b', ht, hperm⟩
        obtain rfl := block_eq_nul ht
        exact ⟨hlen, List.nil_perm.mp hperm⟩
      · rintro ⟨-, rfl⟩
        exact ⟨[], 0 :: b, rfl, List.Perm.refl []⟩
    | cons c e =>
      have hlen : v.length ≠ n + 1 := by
        have := congrArg List.length htail
        rw [List.length_drop, List.length_cons] at this
        omega
      -- what is left of the old value is one entry more
      refine iff_of_false ?_ fun h ↦ hlen h.1
      rintro ⟨ws', b', ht, hperm⟩
      have htail_nf : NulFree (c :: e) := fun x hx ↦ hv x (List.mem_of_mem_drop (htail ▸ hx))
      cases ws' with
      | nil => exact htail_nf c List.mem_cons_self (List.cons.inj ht).1
      | cons y ys =>
        rw [block_cons, List.append_assoc] at ht
        obtain ⟨-, hrest⟩ := append_nul_inj htail_nf y.entry_nulFree ht
        have hys := block_inj hrest
        have hcount := hperm.length_eq
        rw [hys, List.length_cons] at hcount
        omega

theorem store_eq_none (a x : List UInt8) (s : CStr) (h : x.length ≤ s.length) :
    store (a ++ x) a.length s = none := by
  induction s generalizing a x with
  | nil =>
    obtain rfl := List.length_eq_zero_iff.mp (Nat.le_zero.mp h)
    simp [store, poke]
  | cons c s ih =>
    cases x with
    | nil => simp [store, poke]
    | cons y x =>
      have hr := ih (a ++ [c]) x (Nat.le_of_succ_le_succ h)
      rw [List.length_append, List.append_assoc, List.singleton_append] at hr
      rw [store, poke_append, Option.bind_some]
      exact hr

/-- The variable with the text of `CONFIG_BOOTCOMMAND`. -/
def bootVar : Var := ⟨bootcmd, configBootcommand, by decide +kernel, by decide +kernel⟩

theorem store_value {w : Var} (hw : w.name = bootcmd) (us ws : List Var) (b : List UInt8) :
    store (block (us ++ w :: ws) ++ 0 :: b) ((block us).length + w.name.length + 1)
        configBootcommand =
      if configBootcommand.length < (w.value ++ 0 :: (block ws ++ 0 :: b)).length then
        some (block (us ++ [bootVar]) ++
          (w.value ++ 0 :: (block ws ++ 0 :: b)).drop (configBootcommand.length + 1),
          (block us).length + w.name.length + 1 + configBootcommand.length)
      else none := by
  have hdata : block (us ++ w :: ws) ++ 0 :: b =
      (block us ++ w.name ++ [eqSign]) ++ (w.value ++ 0 :: (block ws ++ 0 :: b)) := by
    simp [Var.entry]
  have hlen : (block us).length + w.name.length + 1 =
      (block us ++ w.name ++ [eqSign]).length := by
    simp
    omega
  rw [hdata, hlen]
  split_ifs with hroom
  · rw [store_append _ _ _ hroom]
    have hnew : block (us ++ [bootVar]) =
        block us ++ w.name ++ [eqSign] ++ configBootcommand ++ [0] := by
      rw [hw]
      simp [Var.entry, bootVar]
    rw [hnew]
    simp
  · exact store_eq_none _ _ _ (Nat.not_lt.mp hroom)

section Overwrite

variable {us xs ys : List Var} {v w : Var}

theorem front_ne (hd : Distinct (us ++ w :: xs)) : ∀ u ∈ us, ∀ x ∈ w :: xs, u.name ≠ x.name := by
  intro u hu x hx
  rw [Distinct, List.map_append, List.nodup_append] at hd
  exact hd.2.2 u.name (List.mem_map_of_mem hu) x.name (List.mem_map_of_mem hx)

theorem back_ne (hd : Distinct (us ++ w :: xs)) : ∀ x ∈ xs, x.name ≠ w.name := by
  intro x hx hn
  rw [Distinct, List.map_append, List.nodup_append, List.map_cons, List.nodup_cons] at hd
  exact hd.2.1.1 (List.mem_map.mpr ⟨x, hx, hn⟩)

/-- The values of the variables other than `bootcmd`. -/
def SameOthers (xs ys : List Var) : Prop :=
  ∀ k, NulFree k → eqSign ∉ k → k ≠ bootcmd → lookup xs k = lookup ys k

theorem mem_of_sameOthers (hv : v.name = bootcmd) (hw : w.name = bootcmd)
    (hdx : Distinct (us ++ v :: xs)) (hdy : Distinct (us ++ w :: ys))
    (h : SameOthers (us ++ v :: xs) (us ++ w :: ys)) {x : Var} (hx : x ∈ xs) : x ∈ ys := by
  have hne : x.name ≠ bootcmd := hv ▸ back_ne hdx x hx
  have hfind : lookup (us ++ v :: xs) x.name = some x.value :=
    (lookup_eq_some_iff hdx).mpr ⟨x, by simp [hx], rfl, rfl⟩
  rw [h x.name (fun c hc ↦ (x.name_ok c hc).1) (fun hc ↦ (x.name_ok _ hc).2 rfl) hne,
    lookup_eq_some_iff hdy] at hfind
  obtain ⟨y, hy, hyn, hyv⟩ := hfind
  obtain rfl : y = x := Var.ext hyn hyv
  rcases List.mem_append.mp hy with hus | hrest
  · exact absurd rfl (front_ne hdx y hus y (List.mem_cons_of_mem v hx))
  · rcases List.mem_cons.mp hrest with rfl | hys
    · exact absurd hw hne
    · exact hys

/-- With the same variables elsewhere the environment reads as before, and only then. -/
theorem exists_image_iff_reads (hd : Distinct (us ++ w :: xs)) (hw : w.name = bootcmd)
    {t : List UInt8} :
    (∃ vs, Distinct vs ∧ image vs <+: block (us ++ [bootVar]) ++ t ∧
      SameOthers vs (us ++ w :: xs)) ↔ Reads t xs := by
  constructor
  · rintro ⟨vs, hdv, himage, hsame⟩
    obtain ⟨b, hb⟩ := exists_block_of_image himage
    obtain ⟨ys, rfl, ht⟩ := exists_rest hb.symm
    rw [List.append_assoc, List.singleton_append] at hdv hsame
    refine ⟨ys, b, ht, ?_⟩
    have hnodup {zs : List Var} {z : Var} (h : Distinct (us ++ z :: zs)) : zs.Nodup := by
      rw [Distinct, List.map_append, List.nodup_append, List.map_cons, List.nodup_cons] at h
      exact List.Nodup.of_map Var.name h.2.1.2
    rw [List.perm_ext_iff_of_nodup (hnodup hdv) (hnodup hd)]
    intro x
    constructor
    · exact mem_of_sameOthers rfl hw hdv hd hsame
    · exact mem_of_sameOthers hw rfl hd hdv fun k hk he hne ↦ (hsame k hk he hne).symm
  · rintro ⟨ys, b, rfl, hperm⟩
    have hnames : ((us ++ bootVar :: ys).map Var.name).Perm ((us ++ w :: xs).map Var.name) := by
      rw [List.map_append, List.map_append, List.map_cons, List.map_cons, hw]
      exact ((hperm.map Var.name).cons bootcmd).append_left _
    have hd' : Distinct (us ++ bootVar :: ys) := hnames.nodup_iff.mpr hd
    refine ⟨us ++ bootVar :: ys, hd', ?_, ?_⟩
    · rw [image_of_ne_nil (by simp)]
      exact ⟨b, by simp⟩
    · intro k hk he hne
      apply Option.ext
      intro val
      rw [lookup_eq_some_iff hd', lookup_eq_some_iff hd]
      have hmem (u : Var) (hu : u.name = k) : u ∈ us ++ bootVar :: ys ↔ u ∈ us ++ w :: xs := by
        have hb : u ≠ bootVar := fun h ↦ hne (hu.symm.trans (h ▸ rfl))
        have hw' : u ≠ w := fun h ↦ hne (hu.symm.trans (h ▸ hw))
        simp [hb, hw', hperm.mem_iff]
      constructor
      · rintro ⟨u, hu, hun, huv⟩
        exact ⟨u, (hmem u hun).mp hu, hun, huv⟩
      · rintro ⟨u, hu, hun, huv⟩
        exact ⟨u, (hmem u hun).mpr hu, hun, huv⟩

/-- The environment with the text of `CONFIG_BOOTCOMMAND` copied over the value of `bootcmd`. -/
def overwritten (us : List Var) (w : Var) (xs : List Var) (b : List UInt8) : List UInt8 :=
  block (us ++ [bootVar]) ++
    (w.value ++ 0 :: (block xs ++ 0 :: b)).drop (configBootcommand.length + 1)

theorem value_of_image {g : Globals} {vs : List Var} (h : image vs <+: g.env.data) {k : CStr}
    (hk : NulFree k) (he : eqSign ∉ k) : value g k = lookup vs k := by
  rw [value, getenv_image h hk, entryName_self fun _ hc hh ↦ he (hh ▸ hc)]
  rfl

theorem overwrite_intact_iff {g g₁ : Globals} {b : List UInt8} (hd : Distinct (us ++ w :: xs))
    (hw : w.name = bootcmd) (hdata : g₁.env.data = block (us ++ w :: xs) ++ 0 :: b)
    (hold : ∀ k, NulFree k → eqSign ∉ k → k ≠ bootcmd → value g k = lookup (us ++ w :: xs) k) :
    (∃ g', overwrite g₁ (some ((block us).length + w.name.length + 1)) = some g' ∧ Intact g g') ↔
      Fits w.value xs b ∧ g₁.env.crc = crc32 0 (overwritten us w xs b) := by
  rw [← reads_iff_fits w.value_ok, overwrite, hdata, store_value hw]
  split_ifs with hroom
  · simp only [Option.map_some, Option.some.injEq, exists_eq_left']
    rw [← exists_image_iff_reads hd hw]
    constructor
    · rintro ⟨hwf, hothers, hcrc⟩
      obtain ⟨vs, hdv, himage⟩ := wellFormed_iff.mp hwf
      refine ⟨⟨vs, hdv, himage, fun k hk he hne ↦ ?_⟩, hcrc⟩
      rw [← value_of_image himage hk he, hothers k hk he hne, hold k hk he hne]
    · rintro ⟨⟨vs, hdv, himage, hsame⟩, hcrc⟩
      refine ⟨wellFormed_iff.mpr ⟨vs, hdv, himage⟩, fun k hk he hne ↦ ?_, hcrc⟩
      rw [hold k hk he hne, ← hsame k hk he hne]
      exact value_of_image himage hk he
  · -- the text does not fit behind the start of the value
    refine iff_of_false (by simp) ?_
    rintro ⟨⟨ys, b', ht, -⟩, -⟩
    rw [List.drop_of_length_le (by omega)] at ht
    simp at ht

end Overwrite

/-- The value of `bootcmd` has the room of `CONFIG_BOOTCOMMAND`, and the checksum is the same for
both texts; or `bootcmd` is not set and there is no room for a default. -/
def Survives (g : Globals) : Prop :=
  (∃ us w ws b, g.env.data = block (us ++ w :: ws) ++ 0 :: b ∧ w.name = bootcmd ∧
    Fits w.value ws b ∧ g.env.crc = crc32 0 (overwritten us w ws b)) ∨
  ∃ vs b, g.env.data = block vs ++ 0 :: b ∧ (∀ v ∈ vs, v.name ≠ bootcmd) ∧
    g.env.data.length < (block vs).length + (bootcmd ++ eqSign :: defaultBootcmd).length + 2

section MainLoop

variable (ca : ℕ → CStr → Bool) {g : Globals}

theorem image_of_block {us ws : List Var} {w : Var} {d b : List UInt8}
    (h : d = block (us ++ w :: ws) ++ 0 :: b) : image (us ++ w :: ws) <+: d := by
  rw [image_of_ne_nil (by simp)]
  exact ⟨b, by simp [h]⟩

theorem getenvPtr_defined {us ws : List Var} {w : Var} (hd : Distinct (us ++ w :: ws))
    (hw : w.name = bootcmd) (h : image (us ++ w :: ws) <+: g.env.data) :
    getenvPtr g.env.data bootcmd (g.env.data.length + 1) 0 =
      some (some ((block us).length + w.name.length + 1)) := by
  have hus : ∀ u ∈ us, u.name ≠ w.name := fun u hu ↦ front_ne hd u hu w List.mem_cons_self
  rw [getenvPtr_image h, ← hw, position_append hus, Nat.zero_add]

theorem mainLoop_defined_iff {us ws : List Var} {w : Var} {b : List UInt8}
    (hd : Distinct (us ++ w :: ws)) (hw : w.name = bootcmd)
    (hdata : g.env.data = block (us ++ w :: ws) ++ 0 :: b) :
    (∃ g', mainLoop ca g = some g' ∧ Intact g g') ↔
      Fits w.value ws b ∧ g.env.crc = crc32 0 (overwritten us w ws b) := by
  have himage := image_of_block hdata
  have hptr := getenvPtr_defined hd hw himage
  have hrun : mainLoop ca g = overwrite g (some ((block us).length + w.name.length + 1)) := by
    rw [mainLoop, hptr, Option.bind_some, setDefault, Option.bind_some, hptr, Option.bind_some]
  rw [hrun, overwrite_intact_iff hd hw hdata fun k hk he _ ↦ value_of_image himage hk he]

theorem mainLoop_undefined_iff {vs : List Var} (hd : Distinct vs) (h : image vs <+: g.env.data)
    (hv : ∀ v ∈ vs, v.name ≠ bootcmd) (hcrc : g.env.crc = crc32 0 g.env.data) :
    (∃ g', mainLoop ca g = some g' ∧ Intact g g') ↔
      g.env.data.length < (block vs).length + (bootcmd ++ eqSign :: defaultBootcmd).length + 2 := by
  have hname : NulFree bootcmd := by decide
  have hself : entryName bootcmd = bootcmd := rfl
  have hptr : getenvPtr g.env.data bootcmd (g.env.data.length + 1) 0 = some none := by
    rw [getenvPtr_image h, position_eq_none hv]
  have hset : doSetenv ca g bootcmd [some defaultBootcmd] =
      define g bootcmd ([defaultBootcmd].map some) :=
    doSetenv_undefined ca h hname _ (by rwa [hself])
  let w : Var := ⟨bootcmd, defaultBootcmd, by decide +kernel, by decide +kernel⟩
  have hentry : w.entry = bootcmd ++ argBytes eqSign [defaultBootcmd] := by
    simp [w, Var.entry, argBytes]
  by_cases hroom : g.env.data.length < (block vs).length + w.entry.length + 2
  · refine iff_of_true ⟨g, ?_, wellFormed_iff.mpr ⟨vs, hd, h⟩, fun _ _ _ _ ↦ rfl, hcrc⟩ hroom
    have hdef := define_overflow h w (List.cons_ne_nil _ _) hentry hroom
    rw [mainLoop, hptr, Option.bind_some, setDefault, hset, hdef, Option.map_some,
      Option.bind_some, hptr, Option.bind_some, overwrite]
  · refine iff_of_false ?_ hroom
    obtain ⟨g₁, hdef, -, himage, -⟩ :=
      define_set h w (List.cons_ne_nil _ _) hentry (Nat.not_lt.mp hroom)
    have hd₁ : Distinct (vs ++ [w]) := by
      have := hd.delete_append w
      rwa [delete_of_forall_ne hv] at this
    obtain ⟨b, hb⟩ := exists_block_of_image himage
    have hrun : mainLoop ca g =
        overwrite g₁ (some ((block vs).length + w.name.length + 1)) := by
      rw [mainLoop, hptr, Option.bind_some, setDefault, hset, hdef, Option.map_some,
        Option.bind_some, getenvPtr_defined hd₁ rfl himage, Option.bind_some]
    have hold : ∀ k, NulFree k → eqSign ∉ k → k ≠ bootcmd → value g k = lookup (vs ++ [w]) k := by
      intro k hk he hne
      rw [value_of_image h hk he, lookup_append_left]
      intro v hv'
      rw [List.mem_singleton.mp hv']
      exact hne.symm
    rw [hrun, overwrite_intact_iff hd₁ rfl hb hold]
    rintro ⟨hfits, -⟩
    have hlong : ¬ Fits w.value [] b := by
      rintro (hlen | ⟨hlen, -⟩ | ⟨hlen, -⟩)
      · exact absurd hlen (by decide)
      · exact absurd hlen (by decide)
      · exact absurd hlen (by decide)
    exact hlong hfits

end MainLoop

/-- The boot leaves the environment intact exactly when the value of `bootcmd` has the room for
`CONFIG_BOOTCOMMAND` and the checksum does not tell them apart, or there is no `bootcmd` to
overwrite. -/
theorem main_loop_intact_iff (ca : ℕ → CStr → Bool) (g : Globals) (hg : Valid g.env) :
    (∃ g', mainLoop ca g = some g' ∧ Intact g g') ↔ Survives g := by
  obtain ⟨vs, hd, h⟩ := wellFormed_iff.mp hg.wellFormed
  by_cases hv : ∃ v ∈ vs, v.name = bootcmd
  · obtain ⟨w, us, ws, rfl, hw, -⟩ := exists_split hd hv
    obtain ⟨b, hb⟩ := exists_block_of_image h
    rw [mainLoop_defined_iff ca hd hw hb]
    constructor
    · rintro ⟨hfits, hcrc⟩
      exact Or.inl ⟨us, w, ws, b, hb, hw, hfits, hcrc⟩
    · rintro (⟨us', w', ws', b', hb', hw', hfits, hcrc⟩ | ⟨vs', b', hb', hne, -⟩)
      · have hd' : Distinct (us' ++ w' :: ws') := block_inj (hb.symm.trans hb') ▸ hd
        rw [← mainLoop_defined_iff ca hd hw hb, mainLoop_defined_iff ca hd' hw' hb']
        exact ⟨hfits, hcrc⟩
      · have heq := block_inj (hb.symm.trans hb')
        exact absurd hw (hne w (heq ▸ by simp))
  · push Not at hv
    obtain ⟨b, hb⟩ := exists_block_of_image h
    rw [mainLoop_undefined_iff ca hd h hv hg.crc_eq]
    constructor
    · intro hroom
      exact Or.inr ⟨vs, b, hb, hv, hroom⟩
    · rintro (⟨us, w, ws, b', hb', hw, -, -⟩ | ⟨vs', b', hb', -, hroom⟩)
      · have heq := block_inj (hb.symm.trans hb')
        exact absurd hw (hv w (heq ▸ by simp))
      · rwa [block_inj (hb.symm.trans hb')]

def nextVar : Var := ⟨ascii "a", ascii "1", oldVar.name_ok, oldVar.value_ok⟩

/-- A board that boots from the place the firmware is at. -/
def plainBoard : Globals := board (block [bootVar, nextVar] ++ 0 :: List.replicate 8 0)

theorem main_loop_intact_plain :
    ∃ g', mainLoop (fun _ _ ↦ false) plainBoard = some g' ∧ Intact plainBoard g' := by
  have hvalid : Valid plainBoard.env :=
    ⟨wellFormed_iff.mpr ⟨[bootVar, nextVar], by unfold Distinct; decide, ⟨List.replicate 8 0, rfl⟩⟩, rfl⟩
  apply (main_loop_intact_iff (fun _ _ ↦ false) plainBoard hvalid).mpr
  exact Or.inl ⟨[], bootVar, [nextVar], List.replicate 8 0, rfl, rfl, Or.inl rfl, by decide +kernel⟩

/-- A board with a shorter command in front of another variable. -/
def shortBoard : Globals :=
  board (terminated [ascii "bootcmd=run x", ascii "a=1"] ++ List.replicate 32 0)

/-- The text of `CONFIG_BOOTCOMMAND` ends in the variable behind. -/
theorem main_loop_intact_short :
    Valid shortBoard.env ∧
      ¬ ∃ g', mainLoop (fun _ _ ↦ false) shortBoard = some g' ∧ Intact shortBoard g' := by
  have hlost : (mainLoop (fun _ _ ↦ false) shortBoard).map (fun g' ↦
      decide (value g' (ascii "a") = value shortBoard (ascii "a"))) = some false := by
    decide +kernel
  refine ⟨⟨⟨[ascii "bootcmd=run x", ascii "a=1"], by decide, by decide, by decide⟩, rfl⟩, ?_⟩
  rintro ⟨g', hrun, hintact⟩
  rw [hrun, Option.map_some, Option.some.injEq, decide_eq_false_iff_not] at hlost
  exact hlost (hintact.others (ascii "a") (by decide) (by decide) (by decide))

end UBoot.Env.BootCommand
