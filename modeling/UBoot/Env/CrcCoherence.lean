import Mathlib.Data.List.ReduceOption
import Mathlib.Logic.Relation
import UBoot.Env.EnvFlash
import UBoot.Env.Store

namespace UBoot.Env.CrcCoherence

open Lib.CString Layout Nvedit SetenvSpec Store EnvFlash LibGeneric.Crc32

/-- A well-formed environment with the checksum of its data. -/
structure Valid (env : EnvT) : Prop where
  wellFormed : WellFormed env.data
  crc_eq : env.crc = crc32 0 env.data

/-- The arguments of a call: `argv[1]` and the pointers behind it, each a C string or `NULL`. -/
structure Edit where
  name : CStr
  args : List (Option CStr)
  name_nulFree : NulFree name
  args_nulFree : ∀ a, some a ∈ args → NulFree a

def Edit.newEntry (c : Edit) : CStr := c.name ++ argBytes eqSign c.args.reduceOption

/-- One call, whatever the console devices accept. -/
def Step (g g' : Globals) : Prop :=
  ∃ (ca : ℕ → CStr → Bool) (c : Edit) (r : ℕ), doSetenv ca g c.name c.args = some (r, g')

/-- A call that replaces a definition by one that does not fit behind the remaining entries. -/
def Edit.Spills (c : Edit) (ca : ℕ → CStr → Bool) (g : Globals) : Prop :=
  ∃ es, Listing g.env.data es ∧ entryName c.name ∈ es.map entryName ∧
    (∃ g', permit ca g c.name c.args = some (some g')) ∧ c.args.headD none ≠ none ∧
    g.env.data.length < ((es.filter (entryName · != entryName c.name)).flatMap (· ++ [0])).length +
      c.newEntry.length + 2

def SoundStep (g g' : Globals) : Prop :=
  ∃ (ca : ℕ → CStr → Bool) (c : Edit) (r : ℕ), ¬ c.Spills ca g ∧
    doSetenv ca g c.name c.args = some (r, g')

theorem entryLen_isSome {name : CStr} {args : List (Option CStr)} {n : ℕ}
    (h : entryLen name args = some n) : args = args.reduceOption.map some := by
  induction args generalizing n with
  | nil => rfl
  | cons arg args ih =>
    obtain _ | val := arg
    · cases h
    · simp only [entryLen, Option.bind_some, Option.map_eq_some_iff] at h
      obtain ⟨m, hm, -⟩ := h
      rw [List.reduceOption_cons_of_some, List.map_cons, ← ih hm]

theorem define_args {g g' : Globals} {name : CStr} {args : List (Option CStr)} {r : ℕ}
    (h : define g name args = some (r, g')) (ha : args.headD none ≠ none) :
    args = args.reduceOption.map some := by
  match args, ha with
  | some arg :: rest, _ =>
    simp only [define, append, Option.map_eq_some_iff, Option.bind_eq_some_iff] at h
    obtain ⟨_, ⟨_, -, n, hn, -⟩, -⟩ := h
    exact entryLen_isSome hn

theorem define_cases {g g' : Globals} {vs : List Var} (h : image vs <+: g.env.data) (c : Edit)
    {r : ℕ} (hdef : define g c.name c.args = some (r, g')) :
    g' = envCrcUpdate g ∨
    (c.args.headD none ≠ none ∧ g' = g ∧
      g.env.data.length < (block vs).length + c.newEntry.length + 2) ∨
    ∃ w : Var, w.name = entryName c.name ∧ image (vs ++ [w]) <+: g'.env.data ∧
      g'.env.crc = crc32 0 g'.env.data := by
  by_cases ha : c.args.headD none = none
  · rw [define_dropped g c.name ha] at hdef
    cases hdef
    exact .inl rfl
  · have hargs := define_args hdef ha
    have hne : c.args.reduceOption ≠ [] := by
      intro he
      rw [hargs, he] at ha
      exact ha rfl
    have hnf : ∀ a ∈ c.args.reduceOption, NulFree a :=
      fun a hm ↦ c.args_nulFree a (List.reduceOption_mem_iff.mp hm)
    obtain ⟨w, hw, hwn, -⟩ := exists_newVar c.name_nulFree hne hnf
    rw [hargs] at hdef
    by_cases hfit : g.env.data.length < (block vs).length + w.entry.length + 2
    · rw [define_overflow h w hne hw hfit] at hdef
      cases hdef
      exact .inr (.inl ⟨ha, rfl, by rwa [hw] at hfit⟩)
    · obtain ⟨g₂, hset, -, himage, hcrc⟩ := define_set h w hne hw (Nat.not_lt.mp hfit)
      rw [hset] at hdef
      cases hdef
      exact .inr (.inr ⟨w, hwn, himage, hcrc⟩)

/-- Behind the deletion only the overflow return leaves the old checksum. -/
theorem define_valid {g g' : Globals} {vs : List Var} (h : image vs <+: g.env.data) (c : Edit)
    (hd : Distinct vs) (hne : ∀ v ∈ vs, v.name ≠ entryName c.name) {r : ℕ}
    (hdef : define g c.name c.args = some (r, g'))
    (hspill : c.args.headD none ≠ none →
      g.env.data.length < (block vs).length + c.newEntry.length + 2 → Valid g.env) :
    Valid g'.env := by
  obtain rfl | ⟨ha, rfl, hlt⟩ | ⟨w, hwn, himage, hcrc⟩ := define_cases h c hdef
  · exact ⟨wellFormed_iff.mpr ⟨vs, hd, h⟩, rfl⟩
  · exact hspill ha hlt
  · have hw := hd.delete_append w
    rw [hwn, delete_of_forall_ne hne] at hw
    exact ⟨wellFormed_iff.mpr ⟨_, hw, himage⟩, hcrc⟩

theorem soundStep_valid {g g' : Globals} (hg : Valid g.env) (h : SoundStep g g') :
    Valid g'.env := by
  obtain ⟨ca, c, r, hs, hrun⟩ := h
  obtain ⟨vs, hd, himage⟩ := wellFormed_iff.mp hg.wellFormed
  by_cases hv : ∃ v ∈ vs, v.name = entryName c.name
  · obtain ⟨d, hlen, hdel, hset⟩ := doSetenv_defined ca himage c.name_nulFree c.args hd hv
    rw [hset, Option.bind_eq_some_iff] at hrun
    obtain ⟨_ | g₁, hp, hrun⟩ := hrun
    · cases hrun
      exact hg
    · refine define_valid (g := g₁.withData d) hdel c (hd.delete _) (hd.delete_ne _) hrun ?_
      intro ha hlt
      obtain ⟨v, hv, hvn⟩ := hv
      refine absurd ⟨vs.map Var.entry, listing_iff.mpr ⟨vs, rfl, hd, himage⟩, ?_, ⟨g₁, hp⟩, ha, ?_⟩ hs
      · rw [List.map_map, ← hvn, ← v.entryName_entry]
        exact List.mem_map.mpr ⟨v, hv, rfl⟩
      · rwa [length_remaining hd, ← hlen]
  · push Not at hv
    rw [doSetenv_undefined ca himage c.name_nulFree c.args hv] at hrun
    exact define_valid himage c hd hv hrun (fun _ _ ↦ hg)

theorem sound_run_valid {g g' : Globals} (hg : Valid g.env)
    (h : Relation.ReflTransGen SoundStep g g') : Valid g'.env := by
  induction h with
  | refl => exact hg
  | tail _ hstep ih => exact soundStep_valid ih hstep

/-- Along every run in which no call replaces a definition by one that does not fit, the checksum
in RAM is the checksum of the data, and a save is accepted at the next boot. -/
theorem crc_coherent {g g' : Globals} (hg : Valid g.env)
    (h : Relation.ReflTransGen SoundStep g g') :
    g'.env.crc = crc32 0 g'.env.data ∧
      ∀ (defaultEnvironment : List UInt8) (flashOffset : ℕ) (sector : List UInt8),
        flashOffset + (envBytes g'.env).length ≤ sector.length →
        envInit defaultEnvironment flashOffset (envBytes g'.env).length
          (saveenv flashOffset g'.env sector) = ⟨1, g'.env.data⟩ := by
  have hcrc := (sound_run_valid hg h).crc_eq
  refine ⟨hcrc, fun defaultEnvironment flashOffset sector hs ↦ ?_⟩
  rw [envInit_saveenv defaultEnvironment flashOffset hs, if_pos hcrc.symm]

/-- The board with `a=1` and `b=2`, and the same board without `a`. -/
def smallBoard : Globals := board (terminated [ascii "a=1", ascii "b=2"] ++ List.replicate 15 0)

def smallBoardDeleted : Globals :=
  board (terminated [ascii "b=2"] ++ terminated [ascii "=2"] ++ List.replicate 15 0)

theorem crc_coherent_smallBoard :
    Valid smallBoard.env ∧ Relation.ReflTransGen SoundStep smallBoard smallBoardDeleted ∧
      smallBoardDeleted.env.crc = crc32 0 smallBoardDeleted.env.data ∧
      ∀ (defaultEnvironment : List UInt8) (flashOffset : ℕ) (sector : List UInt8),
        flashOffset + (envBytes smallBoardDeleted.env).length ≤ sector.length →
        envInit defaultEnvironment flashOffset (envBytes smallBoardDeleted.env).length
          (saveenv flashOffset smallBoardDeleted.env sector) =
            ⟨1, smallBoardDeleted.env.data⟩ := by
  have hv : Valid smallBoard.env :=
    ⟨⟨[ascii "a=1", ascii "b=2"], by decide, by decide, by decide⟩, rfl⟩
  have hstep : SoundStep smallBoard smallBoardDeleted :=
    ⟨fun _ _ ↦ false, ⟨ascii "a", [], by decide, by simp⟩, 0,
      fun ⟨_, _, _, _, ha, _⟩ ↦ ha rfl, by decide +kernel⟩
  exact ⟨hv, .single hstep, crc_coherent hv (.single hstep)⟩

/-- A value of `n` bytes. -/
def longVar (n : ℕ) : Var where
  name := ascii "b"
  value := List.replicate n 0x78
  name_ok := by decide +kernel
  value_ok := fun c hc ↦ by
    rw [List.eq_of_mem_replicate hc]
    decide

def oldVar : Var := ⟨ascii "a", ascii "1", by decide +kernel, by decide⟩

def newVar : Var := ⟨ascii "a", ascii "12", by decide +kernel, by decide⟩

/-- A board whose data area has no byte left behind `a=1`. -/
def fullBoard (n : ℕ) : Globals := board (block [longVar n, oldVar] ++ [0])

theorem fullBoard_data (n : ℕ) :
    (fullBoard n).env.data = block [longVar n] ++ 0x61 :: (ascii "=1" ++ [0, 0]) := by
  simp only [fullBoard, board, block_cons, block_nil, List.append_assoc, List.cons_append]
  rfl

theorem longVar_length (n : ℕ) : (block [longVar n]).length = n + 3 := by
  have hn : (longVar n).name.length = 1 := rfl
  simp only [block_cons, block_nil, List.length_append, List.length_cons, List.length_nil,
    Var.entry, hn]
  simp only [longVar, List.length_replicate]
  omega

theorem fullBoard_length (n : ℕ) : (fullBoard n).env.data.length = n + 8 := by
  rw [fullBoard_data, List.length_append, longVar_length]
  rfl

theorem fullBoard_valid (n : ℕ) : Valid (fullBoard n).env := by
  refine ⟨wellFormed_iff.mpr ⟨[longVar n, oldVar], ?_, ?_⟩, rfl⟩
  · exact (by decide : [ascii "b", ascii "a"].Nodup)
  · exact List.prefix_rfl

/-- The data the failed call leaves: the first byte of `a=1` is overwritten. -/
theorem fullBoard_overflow (n : ℕ) (ca : ℕ → CStr → Bool) :
    doSetenv ca (fullBoard n) (ascii "a") [some (ascii "12")] =
      some (1, (fullBoard n).withData (block [longVar n] ++ 0 :: (ascii "=1" ++ [0, 0]))) := by
  have hname : NulFree (ascii "a") := by decide
  have hne : ∀ u ∈ [longVar n], u.name ≠ entryName (ascii "a") := by
    simpa [longVar] using (by decide : ascii "b" ≠ entryName (ascii "a"))
  have hfuel : [longVar n].length < (fullBoard n).env.data.length + 1 := by simp [fullBoard_length]
  obtain ⟨val, hs⟩ := search_some [] [longVar n] [] oldVar hname hne rfl _ hfuel
  have hdel := deleteEntry_last (longVar n) oldVar [] [] (c := 0x61) (e := ascii "=1") rfl
  have hp : permit ca (fullBoard n) (ascii "a") [some (ascii "12")] = some (some (fullBoard n)) :=
    rfl
  have himage : image [longVar n] <+: block [longVar n] ++ 0 :: (ascii "=1" ++ [0, 0]) :=
    ⟨ascii "=1" ++ [0, 0], by simp [image]⟩
  have hw : newVar.entry = ascii "a" ++ argBytes eqSign [ascii "12"] := rfl
  have hdef := define_overflow (g := (fullBoard n).withData _) himage newVar (by decide) hw (by
    have hn : newVar.entry.length = 4 := by decide
    have ht : (0 :: (ascii "=1" ++ [0, 0]) : List UInt8).length = 5 := by decide
    rw [withData_data, List.length_append, longVar_length, hn, ht]
    omega)
  have hd : (fullBoard n).env.data = block ([longVar n] ++ oldVar :: []) ++ 0 :: [] := rfl
  rw [← hd] at hs hdel
  simp only [doSetenv, hs, Option.bind_some, hp, hdel]
  exact hdef

/-- With 64 KiB of environment: an overflowing replacement leaves a checksum that is not the one of
the data, and the saved copy is given up for the default environment. -/
theorem crc_stale_after_overflow :
    Valid (fullBoard 65524).env ∧ ∃ g', Relation.ReflTransGen Step (fullBoard 65524) g' ∧
      g'.env.crc ≠ crc32 0 g'.env.data ∧ (envBytes g'.env).length = 0x10000 ∧
      envInit [0, 0] 0 (envBytes g'.env).length
        (saveenv 0 g'.env (Lib.NorFlash.erased 0x10000)) = ⟨0, [0, 0]⟩ := by
  have hstep : Step (fullBoard 65524) _ :=
    ⟨fun _ _ ↦ false, ⟨ascii "a", [some (ascii "12")], by decide, by
      intro a ha
      obtain rfl : a = ascii "12" := by simpa using ha
      decide⟩, 1, fullBoard_overflow 65524 _⟩
  have hcrc : crc32 0 (fullBoard 65524).env.data ≠
      crc32 0 (block [longVar 65524] ++ 0 :: (ascii "=1" ++ [0, 0])) := by
    rw [fullBoard_data]
    exact crc32_change 0 _ _ (by decide)
  have hlen : (envBytes ((fullBoard 65524).withData
      (block [longVar 65524] ++ 0 :: (ascii "=1" ++ [0, 0]))).env).length = 0x10000 := by
    rw [envBytes, List.length_append, be32_length, withData_data, List.length_append, longVar_length]
    rfl
  refine ⟨fullBoard_valid _, _, .single hstep, hcrc, hlen, ?_⟩
  rw [envInit_saveenv]
  · exact if_neg hcrc.symm
  · rw [hlen, Lib.NorFlash.erased, List.length_replicate]

end UBoot.Env.CrcCoherence
