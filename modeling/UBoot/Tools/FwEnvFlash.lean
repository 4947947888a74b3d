import Mathlib.Logic.Relation
import UBoot.Env.PowerFailAtomic

namespace UBoot.Tools.FwEnvFlash

open Lib.NorFlash Lib.PowerFail Env.EnvFlashRedund Env.PowerFailAtomic LibGeneric.Crc32
open Env.EnvFlash (be32 ofBe32 be32_length ofBe32_be32)

/-- `curdev` and `environment` of the tool. -/
structure Tool where
  curdev : Side
  crc : UInt32
  flags : UInt8
  data : List UInt8
deriving DecidableEq

/-- A branch of `env_init` that takes the copy in `s`. -/
def takeCopy (s : Side) (f : Flash) : Tool := ⟨s, crc32 0 (f s).data, (f s).flags, (f s).data⟩

/-- `env_init` of the tool, which has read the second copy last. -/
def envInit (defaultEnvironment : List UInt8) (f : Flash) : Tool :=
  let crc1_ok := (f .primary).crcOk
  let crc2_ok := (f .redund).crcOk
  let flag1 := (f .primary).flags
  let flag2 := (f .redund).flags
  if crc1_ok && !crc2_ok then takeCopy .primary f
  else if !crc1_ok && crc2_ok then takeCopy .redund f
  else if !crc1_ok && !crc2_ok then
    ⟨.primary, ofBe32 (f .redund).crc, flag2,
      defaultEnvironment ++ (f .redund).data.drop defaultEnvironment.length⟩
  else if flag1 = activeFlag ∧ flag2 = obsoleteFlag then takeCopy .primary f
  else if flag1 = obsoleteFlag ∧ flag2 = activeFlag then takeCopy .redund f
  else if flag1 = flag2 then takeCopy .primary f
  else if flag1 = 0xff then takeCopy .primary f
  else if flag2 = 0xff then takeCopy .redund f
  else ⟨.redund, ofBe32 (f .redund).crc, flag2, (f .redund).data⟩

/-- The device operations of `flash_io (O_RDWR)`. The first write has the checksum and the flag in
one buffer: what a cut inside it leaves is what a cut inside or between these two leaves. -/
def flashIoOps (t : Tool) (f : Flash) : List Op :=
  let otherdev := t.curdev.other
  [.erase otherdev, .writeCrc otherdev (be32 t.crc), .writeFlags otherdev activeFlag,
    .writeData otherdev t.data, .writeRest otherdev (f otherdev).rest,
    .writeFlags t.curdev obsoleteFlag]

/-- The device operations of a `fw_setenv` that changes the data to `d`. -/
def fwSetenvOps (defaultEnvironment d : List UInt8) (f : Flash) : List Op :=
  flashIoOps { envInit defaultEnvironment f with crc := crc32 0 d, data := d } f

/-- The flash, the environment before the last run, and the one that run was writing when it was
cut. -/
structure World where
  flash : Flash
  before : List UInt8
  pending : Option (List UInt8)

/-- No erased or partially written copy of `d` has a valid checksum. -/
structure PartialInvalid (d : List UInt8) : Prop where
  crc : ∀ k ≤ 4, crc32 0 (erased d.length) ≠ ofBe32 ((be32 (crc32 0 d)).take k ++ erased (4 - k))
  data : ∀ k < d.length, crc32 0 (d.take k ++ erased (d.length - k)) ≠ crc32 0 d

inductive Step (defaultEnvironment : List UInt8) (envSize : ℕ) : World → World → Prop
  | run (w : World) (d : List UInt8) : d.length = envSize →
    Step defaultEnvironment envSize w
      ⟨runAll Op.run (fwSetenvOps defaultEnvironment d w.flash) w.flash, d, none⟩
  | cut (w : World) (d : List UInt8) {f : Flash} : d.length = envSize → PartialInvalid d →
    Cut Op.run Op.torn (fwSetenvOps defaultEnvironment d w.flash) w.flash f →
    Step defaultEnvironment envSize w ⟨f, (envInit defaultEnvironment w.flash).data, some d⟩

/-- The copy in `s` is the one both sides take. Two active copies are told apart by their place. -/
structure Taken (n : ℕ) (f : Flash) (s : Side) : Prop where
  sized : Sized n f
  valid : (f s).crcOk = true
  active : (f s).flags = 1
  spare : (f s.other).crcOk = true →
    (f s.other).flags = 0 ∨ (f s.other).flags = 1 ∧ s = .primary

variable {defaultEnvironment d : List UInt8} {n : ℕ} {f f' : Flash} {a s : Side}

theorem Taken.select (defaultEnvironment : List UInt8) (h : Taken n f s) :
    (∃ v, v ≠ 0 ∧ Env.EnvFlashRedund.envInit f = ⟨v, some s⟩) ∧
      envInit defaultEnvironment f = takeCopy s f := by
  obtain ⟨-, hok, hact, hspare⟩ := h
  cases s with
  | primary =>
    cases ho : (f .redund).crcOk with
    | false =>
      refine ⟨⟨1, by decide, ?_⟩, ?_⟩
      · simp [Env.EnvFlashRedund.envInit, hok, ho]
      · simp [envInit, hok, ho]
    | true =>
      rcases hspare ho with h0 | ⟨h1, -⟩
      · simp only [Side.other] at h0
        refine ⟨⟨1, by decide, ?_⟩, ?_⟩
        · simp [Env.EnvFlashRedund.envInit, hok, ho, hact, h0, activeFlag, obsoleteFlag]
        · simp [envInit, hok, ho, hact, h0, activeFlag, obsoleteFlag]
      · simp only [Side.other] at h1
        refine ⟨⟨2, by decide, ?_⟩, ?_⟩
        · simp [Env.EnvFlashRedund.envInit, hok, ho, hact, h1, activeFlag, obsoleteFlag]
        · simp [envInit, hok, ho, hact, h1, activeFlag, obsoleteFlag]
  | redund =>
    cases ho : (f .primary).crcOk with
    | false =>
      refine ⟨⟨1, by decide, ?_⟩, ?_⟩
      · simp [Env.EnvFlashRedund.envInit, hok, ho]
      · simp [envInit, hok, ho]
    | true =>
      have h0 : (f .primary).flags = 0 := by simpa [Side.other, ho] using hspare
      refine ⟨⟨1, by decide, ?_⟩, ?_⟩
      · simp [Env.EnvFlashRedund.envInit, hok, ho, hact, h0, activeFlag, obsoleteFlag]
      · simp [envInit, hok, ho, hact, h0, activeFlag, obsoleteFlag]

/-- The flash while a run on the copy in `a` is under way, with the sector it writes. -/
structure Writing (n : ℕ) (f : Flash) (a : Side) (f' : Flash) (t : Sector) : Prop where
  same : f' a = f a
  spare : f' a.other = t
  sized : Sized n f'

section

variable {t : Sector}

theorem Writing.run (h : Writing n f a f' t) {o : Op} (ho : side o = a.other) :
    Writing n f a (o.run f') (o.run f' a.other) := by
  refine ⟨?_, rfl, h.sized.run o⟩
  rw [run_ne o f' (by rw [ho]; exact ne_other a), h.same]

theorem writing_erase (hn : Sized n f) :
    Writing n f a ((Op.erase a.other).run f)
      ⟨erased 4, 0xff, erased n, erase (f a.other).rest⟩ := by
  have h : Writing n f a f (f a.other) := ⟨rfl, rfl, hn⟩
  have he := h.run (o := .erase a.other) rfl
  obtain ⟨hd, hc⟩ := hn a.other
  have hs : (Op.erase a.other).run f a.other =
      ⟨erased 4, 0xff, erased n, erase (f a.other).rest⟩ := by
    rw [Op.run, Function.update_self, erase, erase, hd, hc]
  rwa [hs] at he

theorem writeData_self (f : Flash) (s : Side) (buf : List UInt8) :
    (Op.writeData s buf).run f s = { f s with data := program (f s).data buf } :=
  Function.update_self _ _ _

theorem Writing.writeCrc (h : Writing n f a f' t) (buf : List UInt8) :
    Writing n f a ((Op.writeCrc a.other buf).run f') { t with crc := program t.crc buf } := by
  have hw := h.run (o := .writeCrc a.other buf) rfl
  rwa [writeCrc_self, h.spare] at hw

theorem Writing.writeFlags (h : Writing n f a f' t) (flag : UInt8) :
    Writing n f a ((Op.writeFlags a.other flag).run f') { t with flags := t.flags &&& flag } := by
  have hw := h.run (o := .writeFlags a.other flag) rfl
  rwa [writeFlags_self, h.spare] at hw

theorem Writing.writeData (h : Writing n f a f' t) (buf : List UInt8) :
    Writing n f a ((Op.writeData a.other buf).run f') { t with data := program t.data buf } := by
  have hw := h.run (o := .writeData a.other buf) rfl
  rwa [writeData_self, h.spare] at hw

theorem Writing.writeRest (h : Writing n f a f' t) (buf : List UInt8) :
    Writing n f a ((Op.writeRest a.other buf).run f') { t with rest := program t.rest buf } := by
  have hw := h.run (o := .writeRest a.other buf) rfl
  rwa [writeRest_self, h.spare] at hw

/-- Until its data are complete the new copy is not valid, and the old one stays. -/
theorem Writing.taken_old (h : Writing n f a f' t) (hf : Taken n f a) (ht : t.crcOk = false) :
    Taken n f' a := by
  refine ⟨h.sized, by rw [h.same]; exact hf.valid, by rw [h.same]; exact hf.active, ?_⟩
  rw [h.spare, ht]
  simp

/-- With two complete active copies the first one is taken, whichever of them is the new one. -/
theorem Writing.taken_both (h : Writing n f a f' t) (hf : Taken n f a) (ht : HasCopy d t)
    (hact : t.flags = 1) :
    ∃ s, Taken n f' s ∧ ((f' s).data = (f a).data ∨ (f' s).data = d) := by
  have ho := h.spare
  have hs := h.same
  cases a with
  | primary =>
    refine ⟨.primary, ⟨h.sized, by rw [hs]; exact hf.valid, by rw [hs]; exact hf.active,
      fun _ ↦ .inr ⟨by rw [ho, hact], rfl⟩⟩, .inl (by rw [hs])⟩
  | redund =>
    simp only [Side.other] at ho
    refine ⟨.primary, ⟨h.sized, by rw [ho]; exact ht.crcOk, by rw [ho, hact],
      fun _ ↦ .inr ⟨?_, rfl⟩⟩, .inr (by rw [ho, ht.2])⟩
    simp only [Side.other]
    rw [hs, hf.active]

theorem Writing.taken_new (h : Writing n f a f' t) (ht : HasCopy d t) (hact : t.flags = 1) :
    Taken n ((Op.writeFlags a obsoleteFlag).run f') a.other ∧
      ((Op.writeFlags a obsoleteFlag).run f' a.other).data = d := by
  have ho : (Op.writeFlags a obsoleteFlag).run f' a.other = t := by
    rw [run_ne _ _ (other_ne a), h.spare]
  refine ⟨⟨h.sized.run _, by rw [ho]; exact ht.crcOk, by rw [ho, hact], fun _ ↦ .inl ?_⟩,
    by rw [ho, ht.2]⟩
  rw [other_other, writeFlags_self]
  exact UInt8.and_zero

end

theorem writing_head (hn : Sized n f) (c : UInt32) :
    Writing n f a ((Op.writeFlags a.other activeFlag).run
        ((Op.writeCrc a.other (be32 c)).run ((Op.erase a.other).run f)))
      ⟨be32 c, 1, erased n, erase (f a.other).rest⟩ := by
  have h := ((writing_erase (a := a) hn).writeCrc (be32 c)).writeFlags activeFlag
  have hp : program (erased 4) (be32 c) = be32 c := by
    rw [program_erased (be32_length c).le, be32_length]
    simp [erased]
  have hact : (0xff : UInt8) &&& activeFlag = 1 := by decide
  simp only [hp, hact] at h
  exact h

theorem writing_copy (hn : Sized n f) (hd : d.length = n) :
    Writing n f a ((Op.writeData a.other d).run ((Op.writeFlags a.other activeFlag).run
        ((Op.writeCrc a.other (be32 (crc32 0 d))).run ((Op.erase a.other).run f))))
      ⟨be32 (crc32 0 d), 1, d, erase (f a.other).rest⟩ := by
  have h := (writing_head (a := a) hn (crc32 0 d)).writeData d
  have hp : program (erased n) d = d := by
    rw [program_erased hd.le, hd]
    simp [erased]
  rwa [hp] at h

theorem flashIoOps_run (hf : Taken n f a) (hd : d.length = n) (flags : UInt8) :
    Taken n (runAll Op.run (flashIoOps ⟨a, crc32 0 d, flags, d⟩ f) f) a.other ∧
      (runAll Op.run (flashIoOps ⟨a, crc32 0 d, flags, d⟩ f) f a.other).data = d := by
  simp only [flashIoOps, runAll_cons, runAll_nil]
  have h := (writing_copy (a := a) hf.sized hd).writeRest (f a.other).rest
  exact h.taken_new ⟨rfl, rfl⟩ rfl

/-- Wherever a run is cut, both sides take the same copy, the old one or the one being written. -/
theorem flashIoOps_cut (hf : Taken n f a) (hd : d.length = n) (flags : UInt8)
    (ht : PartialInvalid d)
    (hc : Cut Op.run Op.torn (flashIoOps ⟨a, crc32 0 d, flags, d⟩ f) f f') :
    ∃ s, Taken n f' s ∧ ((f' s).data = (f a).data ∨ (f' s).data = d) := by
  have old {f' : Flash} {t : Sector} (h : Writing n f a f' t) (hinv : t.crcOk = false) :
      ∃ s, Taken n f' s ∧ ((f' s).data = (f a).data ∨ (f' s).data = d) :=
    ⟨a, h.taken_old hf hinv, .inl (by rw [h.same])⟩
  simp only [flashIoOps] at hc
  rw [cut_cons_iff] at hc
  obtain rfl | hc | hc := hc
  · exact ⟨a, hf, .inl rfl⟩
  · exact hc.elim
  -- the erased sector, and any part of the checksum
  have hcrc (k : ℕ) (hk : k ≤ 4) (flags : UInt8) (rest : List UInt8) : Sector.crcOk
      ⟨program (erased 4) ((be32 (crc32 0 d)).take k), flags, erased n, rest⟩ = false := by
    have hl : ((be32 (crc32 0 d)).take k).length = k := by
      rw [List.length_take, be32_length, Nat.min_eq_left hk]
    rw [program_erased (by rw [hl]; exact hk), hl, ← hd]
    simpa [Sector.crcOk] using ht.crc k hk
  have he := writing_erase (a := a) hf.sized
  rw [cut_cons_iff] at hc
  obtain rfl | ⟨k, rfl⟩ | hc := hc
  · refine old he ?_
    simpa using hcrc 0 (by omega) 0xff (erase (f a.other).rest)
  · have htake : (be32 (crc32 0 d)).take k = (be32 (crc32 0 d)).take (min k 4) := by
      rw [← be32_length (crc32 0 d), List.take_eq_take_min]
    rw [htake]
    exact old (he.writeCrc _) (hcrc _ (by omega) _ _)
  have hfull := hcrc 4 le_rfl
  rw [List.take_of_length_le (be32_length _).le] at hfull
  rw [cut_cons_iff] at hc
  obtain rfl | hc | hc := hc
  · exact old (he.writeCrc _) (hfull _ _)
  · exact hc.elim
  -- any part of the data
  have hh := writing_head (a := a) hf.sized (crc32 0 d)
  have hcopy := writing_copy (a := a) hf.sized hd
  have hhead : Sector.crcOk ⟨be32 (crc32 0 d), 1, erased n, erase (f a.other).rest⟩ = false := by
    have h := ht.crc 4 le_rfl
    rw [List.take_of_length_le (be32_length _).le] at h
    simpa [Sector.crcOk, erased, hd] using h
  rw [cut_cons_iff] at hc
  obtain rfl | ⟨k, rfl⟩ | hc := hc
  · exact old hh hhead
  · by_cases hk : k < d.length
    · refine old (hh.writeData _) ?_
      have hl : (d.take k).length = k := by
        rw [List.length_take]
        omega
      rw [program_erased (by omega), hl, ← hd]
      simpa [Sector.crcOk] using ht.data k hk
    · rw [List.take_of_length_le (Nat.not_lt.mp hk)]
      exact hcopy.taken_both hf ⟨rfl, rfl⟩ rfl
  rw [cut_cons_iff] at hc
  obtain rfl | ⟨k, rfl⟩ | hc := hc
  · exact hcopy.taken_both hf ⟨rfl, rfl⟩ rfl
  · exact (hcopy.writeRest _).taken_both hf ⟨rfl, rfl⟩ rfl
  rw [cut_cons_iff] at hc
  have hrest := hcopy.writeRest (f a.other).rest
  obtain rfl | hc | hc := hc
  · exact hrest.taken_both hf ⟨rfl, rfl⟩ rfl
  · exact hc.elim
  rw [cut_nil_iff] at hc
  obtain ⟨hnew, hdata⟩ := hrest.taken_new ⟨rfl, rfl⟩ rfl
  rw [hc]
  exact ⟨a.other, hnew, .inr hdata⟩

/-- What holds between two runs. -/
def Inv (n : ℕ) (w : World) : Prop :=
  ∃ s, Taken n w.flash s ∧
    ((w.flash s).data = w.before ∨ w.pending = some (w.flash s).data)

theorem step_inv {w w' : World} (h : Inv n w) (hstep : Step defaultEnvironment n w w') :
    Inv n w' := by
  obtain ⟨a, hf, -⟩ := h
  have hsel := (hf.select defaultEnvironment).2
  cases hstep with
  | run d hd =>
    obtain ⟨hnew, hdata⟩ := flashIoOps_run hf hd (w.flash a).flags
    rw [Inv, fwSetenvOps, hsel]
    exact ⟨a.other, hnew, .inl hdata⟩
  | cut d hd ht hc =>
    rw [fwSetenvOps, hsel] at hc
    obtain ⟨s, hs, hdata⟩ := flashIoOps_cut hf hd (w.flash a).flags ht hc
    rw [Inv, hsel]
    refine ⟨s, hs, ?_⟩
    rcases hdata with hdata | hdata
    · exact .inl hdata
    · exact .inr (congrArg some hdata.symm)

/-- After every history of runs of `fw_setenv`, each of which may be cut, the tool and the boot
loader take the same copy, and it holds the environment before or after the last run. -/
theorem fw_setenv_power_fail (envSize : ℕ) (hn : Sized envSize f) (hs : Settled f s) {w : World}
    (h : Relation.ReflTransGen (Step defaultEnvironment envSize) ⟨f, (f s).data, none⟩ w) :
    ∃ t v, v ≠ 0 ∧ Env.EnvFlashRedund.envInit w.flash = ⟨v, some t⟩ ∧
      envInit defaultEnvironment w.flash = takeCopy t w.flash ∧
      ((w.flash t).data = w.before ∨ w.pending = some (w.flash t).data) := by
  have hinv : Inv envSize w := by
    induction h with
    | refl => exact ⟨s, ⟨hn, hs.1, hs.2.1, fun ho ↦ .inl (hs.2.2 ho)⟩, .inl rfl⟩
    | tail _ hstep ih => exact step_inv ih hstep
  obtain ⟨t, ht, hdata⟩ := hinv
  obtain ⟨⟨v, hv, hboot⟩, htool⟩ := ht.select defaultEnvironment
  exact ⟨t, v, hv, hboot, htool, hdata⟩

/-- The environment `a=` in its first copy. -/
def oneCopy : Flash
  | .primary => ⟨be32 (crc32 0 [0x61, 0x3d, 0, 0, 0, 0]), 1, [0x61, 0x3d, 0, 0, 0, 0], [0]⟩
  | .redund => ⟨erased 4, 0, erased 6, [0]⟩

/-- A run that writes `b=` is cut inside its data. -/
theorem fw_setenv_power_fail_data_cut :
    ∃ w : World, Relation.ReflTransGen (Step [0, 0] 6) ⟨oneCopy, [0x61, 0x3d, 0, 0, 0, 0], none⟩ w ∧
      w.pending = some [0x62, 0x3d, 0, 0, 0, 0] ∧
      ∃ t v, v ≠ 0 ∧ Env.EnvFlashRedund.envInit w.flash = ⟨v, some t⟩ ∧
        envInit [0, 0] w.flash = takeCopy t w.flash ∧
        ((w.flash t).data = w.before ∨ w.pending = some (w.flash t).data) := by
  have hsized : Sized 6 oneCopy := by
    intro s
    cases s <;> decide
  have hset : Settled oneCopy .primary := by
    unfold Settled
    decide +kernel
  have ht : PartialInvalid [0x62, 0x3d, 0, 0, 0, 0] := ⟨by decide +kernel, by decide +kernel⟩
  have hrun : Relation.ReflTransGen (Step [0, 0] 6) ⟨oneCopy, [0x61, 0x3d, 0, 0, 0, 0], none⟩ _ :=
    .single (.cut _ _ rfl ht (.after (.after (.after (.inside ⟨2, rfl⟩)))))
  exact ⟨_, hrun, rfl, fw_setenv_power_fail 6 hsized hset hrun⟩

end UBoot.Tools.FwEnvFlash
