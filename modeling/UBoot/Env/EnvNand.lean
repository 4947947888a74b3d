import Mathlib.Logic.Relation
import UBoot.Env.PowerFailAtomic

namespace UBoot.Env.EnvNand

open LibGeneric.Crc32
open EnvFlashRedund (Side EnvT)

/-- The copies at `CFG_ENV_OFFSET` and at `CFG_ENV_OFFSET_REDUND`. -/
abbrev Nand := Side → EnvT

def crcOk (e : EnvT) : Bool := crc32 0 e.data == e.crc

structure Ram where
  env_valid : ℕ
  env : EnvT
deriving DecidableEq

/-- `use_default`; `envSize` is `ENV_SIZE`, which the default environment does not exceed. -/
def useDefault (defaultEnvironment : List UInt8) (envSize : ℕ) : Ram :=
  let data := defaultEnvironment ++ List.replicate (envSize - defaultEnvironment.length) 0
  ⟨1, crc32 0 data, 0, data⟩

/-- `gd->env_valid` when both copies are valid. -/
def checkSerial (flags1 flags2 : UInt8) : ℕ :=
  if flags1 = 255 ∧ flags2 = 0 then 2
  else if flags2 = 255 ∧ flags1 = 0 then 1
  else if flags1 > flags2 then 1
  else if flags2 > flags1 then 2
  else 1

def envRelocateSpec (defaultEnvironment : List UInt8) (envSize : ℕ) (n : Nand) : Ram :=
  let crc1_ok := crcOk (n .primary)
  let crc2_ok := crcOk (n .redund)
  if !crc1_ok && !crc2_ok then useDefault defaultEnvironment envSize
  else
    let env_valid :=
      if crc1_ok && !crc2_ok then 1
      else if !crc1_ok && crc2_ok then 2
      else checkSerial (n .primary).flags (n .redund).flags
    ⟨env_valid, if env_valid = 1 then n .primary else n .redund⟩

/-- How the NAND operations of a save end; a failed one leaves `left` in the copy it works on. -/
inductive Outcome
  | done
  | eraseFails (left : EnvT)
  | writeFails (left : EnvT)

/-- The copy that `saveenv` writes. -/
def target (r : Ram) : Side := if r.env_valid = 1 then .redund else .primary

/-- `saveenv`: its result, the NAND and the RAM after it. -/
def saveenv (o : Outcome) (r : Ram) (n : Nand) : ℕ × Nand × Ram :=
  let r := { r with env := { r.env with flags := r.env.flags + 1 } }
  match o with
  | .eraseFails left => (1, Function.update n (target r) left, r)
  | .writeFails left => (1, Function.update n (target r) left, r)
  | .done =>
    (0, Function.update n (target r) r.env,
      { r with env_valid := if r.env_valid = 2 then 1 else 2 })

/-- The board, with the copy and the environment of the last save that returned 0. -/
structure World where
  nand : Nand
  ram : Option Ram
  last : Option (Side × List UInt8)

inductive Event
  | boot
  | edit (d : List UInt8)
  | save (o : Outcome)

section

variable (defaultEnvironment : List UInt8) (envSize : ℕ)

/-- Without a boot there is nothing to edit or save. -/
def step (e : Event) (w : World) : World :=
  match e, w.ram with
  | .boot, _ => { w with ram := some (envRelocateSpec defaultEnvironment envSize w.nand) }
  | .edit d, some r =>
    { w with ram := some { r with env := { r.env with crc := crc32 0 d, data := d } } }
  | .save o, some r =>
    let (ret, n, r') := saveenv o r w.nand
    ⟨n, some r', if ret = 0 then some (target r, r.env.data) else w.last⟩
  | _, none => w

def run (es : List Event) (w : World) : World :=
  es.foldl (fun w e ↦ step defaultEnvironment envSize e w) w

/-- The boot of `w` loads the environment that was saved last, where both copies are valid or only
its copy. -/
def LoadsLast (w : World) : Prop :=
  ∀ s d, w.last = some (s, d) →
    (∀ t, crcOk (w.nand t) = true) ∨ (crcOk (w.nand s) = true ∧ crcOk (w.nand s.other) = false) →
    (envRelocateSpec defaultEnvironment envSize w.nand).env.data = d

end

/-- A failed save leaves the copy it works on untouched or without a valid checksum. -/
def Admissible (e : Event) (w : World) : Prop :=
  match e, w.ram with
  | .save (.eraseFails left), some r | .save (.writeFails left), some r =>
    left = w.nand (target r) ∨ crcOk left = false
  | _, _ => True

/-- The serial number `new` in the copy `s` is taken for a later one than `old` in the other. -/
def Follows (new old : UInt8) (s : Side) : Prop :=
  (old = 255 ∧ new = 0) ∨ (old < new ∧ ¬ (old = 0 ∧ new = 255)) ∨ (new = old ∧ s = .primary)

/-- A save that succeeds writes a serial number that follows the one of the copy it keeps. -/
def Ordered (e : Event) (w : World) : Prop :=
  match e, w.ram with
  | .save .done, some r => crcOk (w.nand (target r).other) = true →
    Follows (r.env.flags + 1) (w.nand (target r).other).flags (target r)
  | _, _ => True

instance (e : Event) (w : World) : Decidable (Admissible e w) := by
  unfold Admissible
  split <;> infer_instance

instance (e : Event) (w : World) : Decidable (Ordered e w) := by
  unfold Ordered Follows
  split <;> infer_instance

/-- Every step of a history meets a condition on the state before it. -/
def Along (defaultEnvironment : List UInt8) (envSize : ℕ) (P : Event → World → Prop) :
    List Event → World → Prop
  | [], _ => True
  | e :: es, w => P e w ∧ Along defaultEnvironment envSize P es (step defaultEnvironment envSize e w)

instance decidableAlong (defaultEnvironment : List UInt8) (envSize : ℕ)
    (P : Event → World → Prop) [∀ e w, Decidable (P e w)] :
    (es : List Event) → (w : World) → Decidable (Along defaultEnvironment envSize P es w)
  | [], _ => isTrue trivial
  | e :: es, w =>
    have := decidableAlong defaultEnvironment envSize P es (step defaultEnvironment envSize e w)
    inferInstanceAs (Decidable (P e w ∧ _))

/-- The copy that the RAM was loaded from or saved to. -/
def current (r : Ram) : Side := if r.env_valid = 1 then .primary else .redund

/-- The copy of the last save is valid and taken by the next boot, and a running boot loader is on
it. -/
structure Inv (w : World) : Prop where
  last : ∀ s d, w.last = some (s, d) → crcOk (w.nand s) = true ∧ (w.nand s).data = d ∧
    (crcOk (w.nand s.other) = true → Follows (w.nand s).flags (w.nand s.other).flags s)
  ram : ∀ r, w.ram = some r → (r.env_valid = 1 ∨ r.env_valid = 2) ∧
    r.env.crc = crc32 0 r.env.data ∧ ∀ s d, w.last = some (s, d) → current r = s

theorem checkSerial_eq_one_iff (a b : UInt8) : checkSerial a b = 1 ↔ Follows a b .primary := by
  simp only [checkSerial, Follows, ← UInt8.toNat_inj, UInt8.lt_iff_toNat_lt, gt_iff_lt,
    UInt8.reduceToNat]
  split_ifs <;> simp <;> omega

theorem checkSerial_eq_two_iff (a b : UInt8) : checkSerial a b = 2 ↔ Follows b a .redund := by
  simp only [checkSerial, Follows, ← UInt8.toNat_inj, UInt8.lt_iff_toNat_lt, gt_iff_lt,
    UInt8.reduceToNat]
  split_ifs <;> simp <;> omega

section

variable {defaultEnvironment : List UInt8} {envSize : ℕ} {w : World} {n : Nand} {s : Side}

/-- A boot takes a valid copy whose serial number follows the one of the other copy. -/
theorem envRelocateSpec_follows (h : crcOk (n s) = true)
    (ho : crcOk (n s.other) = true → Follows (n s).flags (n s.other).flags s) :
    current (envRelocateSpec defaultEnvironment envSize n) = s ∧
      (envRelocateSpec defaultEnvironment envSize n).env = n s := by
  cases s with
  | primary =>
    cases hr : crcOk (n .redund) with
    | false => simp [envRelocateSpec, h, hr, current]
    | true =>
      have h1 := (checkSerial_eq_one_iff _ _).mpr (ho hr)
      simp only [Side.other] at h1
      simp [envRelocateSpec, h, hr, h1, current]
  | redund =>
    cases hr : crcOk (n .primary) with
    | false => simp [envRelocateSpec, h, hr, current]
    | true =>
      have h2 := (checkSerial_eq_two_iff _ _).mpr (ho hr)
      simp only [Side.other] at h2
      simp [envRelocateSpec, h, hr, h2, current]

theorem checkSerial_range (a b : UInt8) : checkSerial a b = 1 ∨ checkSerial a b = 2 := by
  simp only [checkSerial]
  split_ifs <;> simp

/-- Whatever the NAND holds, a boot leaves a valid environment in RAM. -/
theorem envRelocateSpec_ram (defaultEnvironment : List UInt8) (envSize : ℕ) (n : Nand) :
    let r := envRelocateSpec defaultEnvironment envSize n
    (r.env_valid = 1 ∨ r.env_valid = 2) ∧ r.env.crc = crc32 0 r.env.data := by
  have hcrc : ∀ {e : EnvT}, crcOk e = true → e.crc = crc32 0 e.data := by
    intro e he
    exact (beq_iff_eq.mp he).symm
  cases h1 : crcOk (n .primary) <;> cases h2 : crcOk (n .redund)
  · simp [envRelocateSpec, h1, h2, useDefault]
  · simp [envRelocateSpec, h1, h2, hcrc h2]
  · simp [envRelocateSpec, h1, h2, hcrc h1]
  · rcases checkSerial_range (n .primary).flags (n .redund).flags with hc | hc
    · simp [envRelocateSpec, h1, h2, hc, hcrc h1]
    · simp [envRelocateSpec, h1, h2, hc, hcrc h2]

theorem target_eq (r : Ram) : target r = (current r).other := by
  simp only [target, current]
  split_ifs <;> rfl

theorem Inv.loadsLast (h : Inv w) : LoadsLast defaultEnvironment envSize w := by
  intro s d hl _
  obtain ⟨hok, hd, ho⟩ := h.last s d hl
  rw [(envRelocateSpec_follows hok ho).2, hd]

theorem Inv.failed (h : Inv w) {r : Ram} (hr : w.ram = some r) {left : EnvT}
    (hleft : left = w.nand (target r) ∨ crcOk left = false) :
    Inv ⟨Function.update w.nand (target r) left,
      some { r with env := { r.env with flags := r.env.flags + 1 } }, w.last⟩ := by
  obtain ⟨hv, hcrc, hcur⟩ := h.ram r hr
  refine ⟨fun s d hl ↦ ?_, ?_⟩
  · obtain ⟨hok, hd, ho⟩ := h.last s d hl
    have hs : current r = s := hcur s d hl
    have ht : target r = s.other := by rw [target_eq, hs]
    have hne : s ≠ s.other := PowerFailAtomic.ne_other s
    simp only [ht, Function.update_of_ne hne, Function.update_self]
    refine ⟨hok, hd, fun hov ↦ ?_⟩
    rcases hleft with rfl | hbad
    · rw [ht] at hov ⊢
      exact ho hov
    · rw [hbad] at hov
      cases hov
  · rintro r' ⟨⟩
    exact ⟨hv, hcrc, hcur⟩

theorem Inv.saved (h : Inv w) {r : Ram} (hr : w.ram = some r)
    (hord : crcOk (w.nand (target r).other) = true →
      Follows (r.env.flags + 1) (w.nand (target r).other).flags (target r)) :
    Inv ⟨Function.update w.nand (target r) { r.env with flags := r.env.flags + 1 },
      some ⟨if r.env_valid = 2 then 1 else 2, { r.env with flags := r.env.flags + 1 }⟩,
      some (target r, r.env.data)⟩ := by
  obtain ⟨hv, hcrc, -⟩ := h.ram r hr
  have hne : (target r).other ≠ target r := PowerFailAtomic.other_ne _
  refine ⟨?_, ?_⟩
  · rintro s d ⟨⟩
    simp only [Function.update_self, Function.update_of_ne hne]
    exact ⟨by simp [crcOk, hcrc], trivial, hord⟩
  · rintro r' ⟨⟩
    refine ⟨by split_ifs <;> simp, hcrc, ?_⟩
    rintro s d ⟨⟩
    rcases hv with hv | hv <;> simp [current, target, hv]

theorem Inv.boot (h : Inv w) :
    Inv { w with ram := some (envRelocateSpec defaultEnvironment envSize w.nand) } := by
  refine ⟨h.last, ?_⟩
  rintro r ⟨⟩
  obtain ⟨hv, hcrc⟩ := envRelocateSpec_ram defaultEnvironment envSize w.nand
  refine ⟨hv, hcrc, fun s d hl ↦ ?_⟩
  obtain ⟨hok, -, ho⟩ := h.last s d hl
  exact (envRelocateSpec_follows hok ho).1

theorem Inv.edit (h : Inv w) {r : Ram} (hr : w.ram = some r) (d : List UInt8) :
    Inv { w with ram := some { r with env := { r.env with crc := crc32 0 d, data := d } } } := by
  refine ⟨h.last, ?_⟩
  rintro r' ⟨⟩
  obtain ⟨hv, -, hcur⟩ := h.ram r hr
  exact ⟨hv, rfl, hcur⟩

theorem step_inv (h : Inv w) {e : Event} (hadm : Admissible e w) (hord : Ordered e w) :
    Inv (step defaultEnvironment envSize e w) := by
  cases e with
  | boot => exact h.boot
  | edit d =>
    cases hr : w.ram with
    | none => simpa only [step, hr] using h
    | some r => simpa only [step, hr] using h.edit hr d
  | save o =>
    cases hr : w.ram with
    | none => simpa only [step, hr] using h
    | some r =>
      simp only [Admissible, Ordered, hr] at hadm hord
      cases o with
      | done =>
        simp only [step, hr]
        exact h.saved hr hord
      | eraseFails left =>
        simp only [step, hr]
        exact h.failed hr hadm
      | writeFails left =>
        simp only [step, hr]
        exact h.failed hr hadm

theorem run_inv (h : Inv w) {es : List Event}
    (hadm : Along defaultEnvironment envSize Admissible es w)
    (hord : Along defaultEnvironment envSize Ordered es w) :
    Inv (run defaultEnvironment envSize es w) := by
  induction es generalizing w with
  | nil => exact h
  | cons e es ih => exact ih (step_inv h hadm.1 hord.1) hadm.2 hord.2

end

/-- A board before its first boot. -/
def off (n : Nand) : World := ⟨n, none, none⟩

/-- In every history in which each save that succeeds writes a serial number that follows the one
of the copy it keeps, every boot loads the environment that was saved last. -/
theorem nand_recency (defaultEnvironment : List UInt8) (envSize : ℕ) (n : Nand) (es : List Event)
    (hadm : Along defaultEnvironment envSize Admissible es (off n))
    (hord : Along defaultEnvironment envSize Ordered es (off n)) :
    LoadsLast defaultEnvironment envSize (run defaultEnvironment envSize es (off n)) := by
  have hinv : Inv (off n) := ⟨by simp [off], by simp [off]⟩
  exact (run_inv hinv hadm hord).loadsLast

/-- An erased NAND. -/
def blank : Nand := fun _ ↦ ⟨0xffffffff, 255, [0xff, 0xff]⟩

/-- A boot and 255 saves, a save whose erase fails, and a save of `b=`. -/
def wrapHistory : List Event :=
  .boot :: (List.replicate 255 (.save .done) ++
    [.save (.eraseFails ⟨crc32 0 [0, 0], 254, [0, 0]⟩), .edit [0x62, 0], .save .done])

/-- A history with a failed save in it. -/
theorem nand_recency_failed_erase :
    let es : List Event := [.boot, .save .done, .save (.eraseFails (blank .primary)),
      .edit [0x62, 0], .save .done]
    Along [0, 0] 2 Admissible es (off blank) ∧ Along [0, 0] 2 Ordered es (off blank) ∧
      LoadsLast [0, 0] 2 (run [0, 0] 2 es (off blank)) := by
  intro es
  have hadm : Along [0, 0] 2 Admissible es (off blank) := by decide +kernel
  have hord : Along [0, 0] 2 Ordered es (off blank) := by decide +kernel
  exact ⟨hadm, hord, nand_recency [0, 0] 2 blank es hadm hord⟩

/-- The serial number skips 0: the copy with 255 is taken for a later one than the copy with 1. -/
theorem nand_recency_wrap :
    ¬ ∀ (defaultEnvironment : List UInt8) (envSize : ℕ) (n : Nand) (es : List Event),
      Along defaultEnvironment envSize Admissible es (off n) →
      LoadsLast defaultEnvironment envSize (run defaultEnvironment envSize es (off n)) := by
  intro h
  have hadm : Along [0, 0] 2 Admissible wrapHistory (off blank) := by decide +kernel
  have hlast : (run [0, 0] 2 wrapHistory (off blank)).last = some (.primary, [0x62, 0]) := by
    decide +kernel
  have hok : crcOk ((run [0, 0] 2 wrapHistory (off blank)).nand .primary) = true ∧
      crcOk ((run [0, 0] 2 wrapHistory (off blank)).nand .redund) = true := by
    decide +kernel
  have hload : (envRelocateSpec [0, 0] 2 (run [0, 0] 2 wrapHistory (off blank)).nand).env.data =
      [0, 0] := by
    decide +kernel
  have hboth : ∀ t, crcOk ((run [0, 0] 2 wrapHistory (off blank)).nand t) = true := by
    intro t
    cases t with
    | primary => exact hok.1
    | redund => exact hok.2
  have hd := h [0, 0] 2 blank wrapHistory hadm .primary [0x62, 0] hlast (.inl hboth)
  rw [hload] at hd
  exact absurd hd (by decide)

end UBoot.Env.EnvNand
