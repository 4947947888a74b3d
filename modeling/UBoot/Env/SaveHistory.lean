import Mathlib.Logic.Relation
import UBoot.Env.PowerFailAtomic

namespace UBoot.Env.SaveHistory

open Lib.NorFlash Lib.PowerFail EnvFlashRedund PowerFailAtomic LibGeneric.Crc32

/-- The board, with the environment that is current and the one whose save was interrupted;
`none` for the current one is the default environment. -/
structure World where
  flash : Flash
  ram : Option Ram
  current : Option (List UInt8)
  pending : Option (List UInt8)
  saved : Prop

variable (defaultEnvironment : List UInt8) (envSize : ℕ)

/-- The environment a boot loads; `none` is the default environment. -/
def loaded (f : Flash) : Option (List UInt8) :=
  if (envInit f).env_valid = 0 then none
  else some (boot defaultEnvironment envSize f).2.env.data

/-- A board that was never used. -/
def fresh (rest : ℕ) : World :=
  ⟨fun _ ↦ ⟨erased 4, 0xff, erased envSize, erased rest⟩, none, none, none, False⟩

/-- An edit is any change of the data that updates the checksum. -/
inductive Step : World → World → Prop
  | boot (w : World) :
    Step w ⟨(boot defaultEnvironment envSize w.flash).1,
      some (boot defaultEnvironment envSize w.flash).2,
      loaded defaultEnvironment envSize w.flash, none, w.saved⟩
  | bootCut (w : World) {v : ℕ} {s : Side} {f : Flash} :
    envInit w.flash = ⟨v, some s⟩ → Cut Op.run Op.torn (relocateOps s w.flash) w.flash f →
    Step w ⟨f, none, loaded defaultEnvironment envSize w.flash, none, w.saved⟩
  | edit (w : World) {r : Ram} {d : List UInt8} : w.ram = some r → d.length = envSize →
    Step w { w with ram := some { r with env := { r.env with crc := crc32 0 d, data := d } } }
  | save (w : World) {r : Ram} : w.ram = some r →
    Step w ⟨(saveenv r w.flash).1, some (saveenv r w.flash).2, some r.env.data, none, True⟩
  | saveCut (w : World) {r : Ram} {f : Flash} : w.ram = some r → TornInvalid r.env.data →
    Cut Op.run Op.torn (saveenvOps r w.flash) w.flash f →
    Step w ⟨f, none, w.current, some r.env.data, w.saved⟩
  | off (w : World) : Step w { w with ram := none }

structure Inv (w : World) : Prop where
  sized : Sized envSize w.flash
  saved_current : w.saved → w.current ≠ none
  holds : Holds w.flash w.current ∨ ∃ d, w.pending = some d ∧ Holds w.flash (some d)
  running : ∀ r, w.ram = some r → r.env.data.length = envSize ∧
    r.env.crc = crc32 0 r.env.data ∧ Base w.flash r.flash_addr w.current

variable {defaultEnvironment envSize} {f : Flash}

/-- A complete boot: it loads what the flash holds and settles it. -/
theorem boot_of_holds (hdef : defaultEnvironment.length ≤ envSize) (hn : Sized envSize f)
    {x : Option (List UInt8)} (h : Holds f x) :
    loaded defaultEnvironment envSize f = x ∧ Sized envSize (boot defaultEnvironment envSize f).1 ∧
      let r := (boot defaultEnvironment envSize f).2
      r.env.data.length = envSize ∧ r.env.crc = crc32 0 r.env.data ∧
        Base (boot defaultEnvironment envSize f).1 r.flash_addr x := by
  cases x with
  | none =>
    have hsel := envInit_noCopy h
    have hb : boot defaultEnvironment envSize f = (f, useDefault defaultEnvironment envSize) := by
      rw [boot, hsel]
      rfl
    refine ⟨by simp [loaded, hsel], by rwa [hb], ?_⟩
    rw [hb]
    refine ⟨?_, rfl, h⟩
    simp only [useDefault, List.length_append, List.length_replicate]
    omega
  | some d =>
    obtain ⟨s, hcur, rfl⟩ := h
    obtain ⟨v, hv, hsel⟩ := envInit_current hcur
    obtain ⟨hk, hset⟩ := relocateOps_run hcur hn
    have hb : boot defaultEnvironment envSize f = envRelocateSpec v s f := by
      obtain _ | v := v
      · exact absurd rfl hv
      · rw [boot, hsel]
        rfl
    refine ⟨?_, by rw [hb]; exact hk.sized, ?_⟩
    · rw [loaded, hsel, if_neg hv, hb]
      exact congrArg some hk.data_eq
    · rw [hb]
      exact ⟨(hk.sized s).1, (beq_iff_eq.mp hset.1).symm, hset, hk.data_eq⟩

theorem loaded_of_holds (hdef : defaultEnvironment.length ≤ envSize) (hn : Sized envSize f)
    {x : Option (List UInt8)} (h : Holds f x) : loaded defaultEnvironment envSize f = x :=
  (boot_of_holds hdef hn h).1

theorem bootCut_holds {f' : Flash} (hn : Sized envSize f) {x : Option (List UInt8)}
    (h : Holds f x) {v : ℕ} {s : Side} (hsel : envInit f = ⟨v, some s⟩)
    (hc : Cut Op.run Op.torn (relocateOps s f) f f') : Sized envSize f' ∧ Holds f' x := by
  cases x with
  | none =>
    rw [envInit_noCopy h] at hsel
    cases hsel
  | some d =>
    obtain ⟨t, hcur, rfl⟩ := h
    obtain ⟨v', -, hsel'⟩ := envInit_current hcur
    rw [hsel'] at hsel
    cases hsel
    have hk := relocateOps_cut hcur hn hc
    exact ⟨hk.sized, s, hk.current, hk.data_eq⟩

theorem Inv.loaded {w : World} (hdef : defaultEnvironment.length ≤ envSize)
    (h : Inv envSize w) :
    Holds w.flash (loaded defaultEnvironment envSize w.flash) ∧
      (loaded defaultEnvironment envSize w.flash = w.current ∨
        ∃ d, w.pending = some d ∧ loaded defaultEnvironment envSize w.flash = some d) ∧
      (w.saved → loaded defaultEnvironment envSize w.flash ≠ none) := by
  obtain hh | ⟨d, hp, hh⟩ := h.holds
  · rw [loaded_of_holds hdef h.sized hh]
    exact ⟨hh, .inl rfl, h.saved_current⟩
  · rw [loaded_of_holds hdef h.sized hh]
    exact ⟨hh, .inr ⟨d, hp, rfl⟩, by simp⟩

theorem step_inv {w w' : World} (hdef : defaultEnvironment.length ≤ envSize) (h : Inv envSize w)
    (hstep : Step defaultEnvironment envSize w w') : Inv envSize w' := by
  cases hstep with
  | boot =>
    obtain ⟨hh, -, hs⟩ := h.loaded hdef
    obtain ⟨-, hsz, hr⟩ := boot_of_holds hdef h.sized hh
    refine ⟨hsz, hs, .inl hr.2.2.holds, ?_⟩
    rintro r ⟨⟩
    exact hr
  | bootCut hsel hc =>
    obtain ⟨hh, -, hs⟩ := h.loaded hdef
    obtain ⟨hsz, hh'⟩ := bootCut_holds h.sized hh hsel hc
    exact ⟨hsz, hs, .inl hh', by simp⟩
  | edit hr hd =>
    refine ⟨h.sized, h.saved_current, h.holds, ?_⟩
    rintro r' ⟨⟩
    exact ⟨hd, rfl, (h.running _ hr).2.2⟩
  | save hr =>
    obtain ⟨hd, hcrc, -⟩ := h.running _ hr
    obtain ⟨hset, hdata, hsz⟩ := saveenv_run h.sized rfl hd hcrc
    refine ⟨hsz, by simp, .inl ⟨_, hset.current, hdata⟩, ?_⟩
    rintro r' ⟨⟩
    exact ⟨hd, hcrc, hset, hdata⟩
  | saveCut hr ht hc =>
    obtain ⟨hd, hcrc, hb⟩ := h.running _ hr
    obtain ⟨hsz, hh⟩ := saveenv_cut h.sized hd hcrc ht hb hc
    refine ⟨hsz, h.saved_current, ?_, by simp⟩
    obtain hh | hh := hh
    · exact .inl hh
    · exact .inr ⟨_, rfl, hh⟩
  | off => exact ⟨h.sized, h.saved_current, h.holds, by simp⟩

theorem fresh_inv (rest : ℕ) (he : crc32 0 (erased envSize) ≠ 0xffffffff) :
    Inv envSize (fresh envSize rest) := by
  refine ⟨fun s ↦ by simp [fresh, erased], by simp [fresh], .inl fun s ↦ ?_, by simp [fresh]⟩
  simpa [fresh, Sector.crcOk, ofBe32_erased] using he

/-- Power-fail atomicity: after every history of boots, edits and saves, each of which may be cut at
any flash operation, the next boot loads the environment that is current or, after an interrupted
save, the one that was being saved; once a save has completed it never is the default one. -/
theorem power_fail_atomic (hdef : defaultEnvironment.length ≤ envSize)
    (he : crc32 0 (erased envSize) ≠ 0xffffffff) (rest : ℕ) {w : World}
    (h : Relation.ReflTransGen (Step defaultEnvironment envSize) (fresh envSize rest) w) :
    (loaded defaultEnvironment envSize w.flash = w.current ∨
      ∃ d, w.pending = some d ∧ loaded defaultEnvironment envSize w.flash = some d) ∧
    (w.saved → loaded defaultEnvironment envSize w.flash ≠ none) := by
  have hinv : Inv envSize w := by
    induction h with
    | refl => exact fresh_inv rest he
    | tail _ hstep ih => exact step_inv hdef ih hstep
  exact (hinv.loaded hdef).2

/-- The environments `a=` and `b=` in six bytes. -/
def firstData : List UInt8 := [0x61, 0x3d, 0, 0, 0, 0]

def secondData : List UInt8 := [0x62, 0x3d, 0, 0, 0, 0]

/-- A save of `a=` completes; the one of `b=` is cut inside its checksum. -/
theorem power_fail_atomic_second_save_cut :
    ∃ w : World, Relation.ReflTransGen (Step [0, 0] 6) (fresh 6 1) w ∧ w.saved ∧
      w.current = some firstData ∧ w.pending = some secondData ∧
      (loaded [0, 0] 6 w.flash = w.current ∨
        ∃ d, w.pending = some d ∧ loaded [0, 0] 6 w.flash = some d) ∧
      (w.saved → loaded [0, 0] 6 w.flash ≠ none) := by
  have ht : TornInvalid secondData := by
    unfold TornInvalid
    decide +kernel
  have h₁ : Relation.ReflTransGen (Step [0, 0] 6) (fresh 6 1) _ := .single (.boot _)
  have h₂ := h₁.tail (.edit _ (d := firstData) rfl rfl)
  have h₃ := h₂.tail (.save _ rfl)
  have h₄ := h₃.tail (.edit _ (d := secondData) rfl rfl)
  have h₅ := h₄.tail (.saveCut _ rfl ht (.after (.after (.inside ⟨2, rfl⟩))))
  exact ⟨_, h₅, trivial, rfl, rfl, power_fail_atomic (by decide) (by decide +kernel) 1 h₅⟩

end UBoot.Env.SaveHistory
