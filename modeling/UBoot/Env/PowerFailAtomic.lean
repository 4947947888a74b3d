import UBoot.Env.EnvFlashRedund

namespace UBoot.Env.PowerFailAtomic

open Lib.NorFlash Lib.PowerFail EnvFlashRedund LibGeneric.Crc32
open EnvFlash (be32 ofBe32 be32_length ofBe32_be32)

@[simp] theorem other_ne (s : Side) : s.other ≠ s := by cases s <;> decide

@[simp] theorem ne_other (s : Side) : s ≠ s.other := by cases s <;> decide

@[simp] theorem other_other (s : Side) : s.other.other = s := by cases s <;> rfl

/-- The copy in `s` is the one a boot takes. -/
def Current (f : Flash) (s : Side) : Prop :=
  (f s).crcOk = true ∧
    (((f s).flags = 1 ∧ ((f s.other).crcOk = true → (f s.other).flags = 0)) ∨
     ((f s).flags = 0xff ∧
      ((f s.other).crcOk = true → (f s.other).flags = 0 ∨ (f s.other).flags = 1)))

/-- The copy in `s` is the only one that is valid and active. -/
def Settled (f : Flash) (s : Side) : Prop :=
  (f s).crcOk = true ∧ (f s).flags = 1 ∧ ((f s.other).crcOk = true → (f s.other).flags = 0)

def NoCopy (f : Flash) : Prop := ∀ s, (f s).crcOk = false

def Sized (envSize : ℕ) (f : Flash) : Prop :=
  ∀ s, (f s).data.length = envSize ∧ (f s).crc.length = 4

theorem Settled.current {f : Flash} {s : Side} (h : Settled f s) : Current f s :=
  ⟨h.1, .inl h.2⟩

theorem envInit_current {f : Flash} {s : Side} (h : Current f s) :
    ∃ v, v ≠ 0 ∧ envInit f = ⟨v, some s⟩ := by
  obtain ⟨hok, hflags⟩ := h
  cases s with
  | primary =>
    cases ho : (f Side.redund).crcOk with
    | false => exact ⟨1, by decide, by simp [envInit, hok, ho]⟩
    | true =>
      simp only [Side.other, ho, forall_const] at hflags
      obtain ⟨h₁, h₂⟩ | ⟨h₁, h₂ | h₂⟩ := hflags
      · exact ⟨1, by decide, by simp [envInit, hok, ho, h₁, h₂, activeFlag, obsoleteFlag]⟩
      · exact ⟨2, by decide, by simp [envInit, hok, ho, h₁, h₂, activeFlag, obsoleteFlag]⟩
      · exact ⟨2, by decide, by simp [envInit, hok, ho, h₁, h₂, activeFlag, obsoleteFlag]⟩
  | redund =>
    cases ho : (f Side.primary).crcOk with
    | false => exact ⟨1, by decide, by simp [envInit, hok, ho]⟩
    | true =>
      simp only [Side.other, ho, forall_const] at hflags
      obtain ⟨h₁, h₂⟩ | ⟨h₁, h₂ | h₂⟩ := hflags
      · exact ⟨1, by decide, by simp [envInit, hok, ho, h₁, h₂, activeFlag, obsoleteFlag]⟩
      · exact ⟨2, by decide, by simp [envInit, hok, ho, h₁, h₂, activeFlag, obsoleteFlag]⟩
      · exact ⟨2, by decide, by simp [envInit, hok, ho, h₁, h₂, activeFlag, obsoleteFlag]⟩

theorem envInit_noCopy {f : Flash} (h : NoCopy f) : envInit f = ⟨0, none⟩ := by
  simp [envInit, h .primary, h .redund]

/-- The sector an operation works on. -/
def side : Op → Side
  | .erase s | .writeData s _ | .writeCrc s _ | .writeFlags s _ | .writeRest s _ => s

theorem run_ne (o : Op) (f : Flash) {t : Side} (h : t ≠ side o) : o.run f t = f t := by
  cases o <;> exact Function.update_of_ne h _ _

theorem writeFlags_self (f : Flash) (s : Side) (v : UInt8) :
    (Op.writeFlags s v).run f s = { f s with flags := (f s).flags &&& v } :=
  Function.update_self _ _ _

theorem writeCrc_self (f : Flash) (s : Side) (buf : List UInt8) :
    (Op.writeCrc s buf).run f s = { f s with crc := program (f s).crc buf } :=
  Function.update_self _ _ _

theorem writeRest_self (f : Flash) (s : Side) (buf : List UInt8) :
    (Op.writeRest s buf).run f s = { f s with rest := program (f s).rest buf } :=
  Function.update_self _ _ _

theorem Sized.run {n : ℕ} {f : Flash} (h : Sized n f) (o : Op) : Sized n (o.run f) := by
  intro t
  by_cases ht : t = side o
  · subst ht
    have hs := h (side o)
    cases o <;> simpa [Op.run, side, erase, erased] using hs
  · rw [run_ne o f ht]
    exact h t

theorem Current.obsolete_other {f : Flash} {s : Side} (h : Current f s) :
    Current ((Op.writeFlags s.other obsoleteFlag).run f) s := by
  obtain ⟨hok, hflags⟩ := h
  have ho : ((Op.writeFlags s.other obsoleteFlag).run f s.other).flags = 0 := by
    rw [writeFlags_self]
    simp [obsoleteFlag]
  rw [Current, run_ne _ f (ne_other s)]
  refine ⟨hok, ?_⟩
  obtain ⟨h₁, -⟩ | ⟨h₁, -⟩ := hflags
  · exact .inl ⟨h₁, fun _ ↦ ho⟩
  · exact .inr ⟨h₁, fun _ ↦ .inl ho⟩

theorem Current.activate {f : Flash} {s : Side} (h : Current f s)
    (ho : (f s.other).crcOk = true → (f s.other).flags = 0) :
    Settled ((Op.writeFlags s activeFlag).run f) s := by
  rw [Settled, writeFlags_self, run_ne _ f (other_ne s)]
  refine ⟨h.1, ?_, ho⟩
  obtain ⟨h₁, -⟩ | ⟨h₁, -⟩ := h.2
  · rw [h₁]
    rfl
  · rw [h₁]
    rfl

variable {f f' : Flash} {s : Side} {n : ℕ}

/-- What the repairs keep of the copy that was taken. -/
structure Kept (n : ℕ) (s : Side) (f f' : Flash) : Prop where
  current : Current f' s
  data_eq : (f' s).data = (f s).data
  sized : Sized n f'

theorem obsoleteOps_cut (h : Current f s) (hn : Sized n f)
    (hc : Cut Op.run Op.torn (obsoleteOps s f) f f') : Kept n s f f' := by
  rw [obsoleteOps] at hc
  split_ifs at hc
  · simp only [cut_cons_iff, Op.torn, cut_nil_iff, false_or] at hc
    obtain rfl | rfl := hc
    · exact ⟨h, rfl, hn⟩
    · exact ⟨h.obsolete_other, by rw [run_ne _ f (ne_other s)], hn.run _⟩
  · obtain rfl := cut_nil_iff.mp hc
    exact ⟨h, rfl, hn⟩

theorem obsoleteOps_run (h : Current f s) (hn : Sized n f) :
    Kept n s f (runAll Op.run (obsoleteOps s f) f) ∧
      (runAll Op.run (obsoleteOps s f) f) s = f s ∧
      ((runAll Op.run (obsoleteOps s f) f s.other).crcOk = true →
        (runAll Op.run (obsoleteOps s f) f s.other).flags = 0) := by
  rw [obsoleteOps]
  split_ifs with hc
  · rw [runAll_cons, runAll_nil]
    have hs := run_ne (.writeFlags s.other obsoleteFlag) f (ne_other s)
    refine ⟨⟨h.obsolete_other, by rw [hs], hn.run _⟩, hs, fun _ ↦ ?_⟩
    rw [writeFlags_self]
    exact UInt8.and_zero
  · refine ⟨⟨h, rfl, hn⟩, rfl, fun hok ↦ ?_⟩
    by_contra hne
    exact hc ⟨hne, hok⟩

theorem relocateOps_run (h : Current f s) (hn : Sized n f) :
    Kept n s f (runAll Op.run (relocateOps s f) f) ∧
      Settled (runAll Op.run (relocateOps s f) f) s := by
  obtain ⟨hk, hs, ho⟩ := obsoleteOps_run h hn
  rw [relocateOps, runAll_append]
  generalize runAll Op.run (obsoleteOps s f) f = f₁ at hk hs ho
  rw [activateOps]
  split_ifs with hc
  · rw [runAll_cons, runAll_nil]
    have hset := hk.current.activate ho
    refine ⟨⟨hset.current, ?_, hk.sized.run _⟩, hset⟩
    rw [writeFlags_self]
    exact hk.data_eq
  · refine ⟨hk, hk.current.1, ?_, ho⟩
    obtain ⟨h₁, -⟩ | ⟨h₁, -⟩ := hk.current.2
    · exact h₁
    · rw [← hs, h₁] at hc
      exact absurd (by decide) hc

theorem relocateOps_cut (h : Current f s) (hn : Sized n f)
    (hc : Cut Op.run Op.torn (relocateOps s f) f f') : Kept n s f f' := by
  rw [relocateOps, cut_append_iff] at hc
  obtain hc | hc := hc
  · exact obsoleteOps_cut h hn hc
  · obtain ⟨hk, hs, ho⟩ := obsoleteOps_run h hn
    generalize runAll Op.run (obsoleteOps s f) f = f₁ at hk hs ho hc
    rw [activateOps] at hc
    split_ifs at hc
    · simp only [cut_cons_iff, Op.torn, cut_nil_iff, false_or] at hc
      obtain rfl | rfl := hc
      · exact hk
      · refine ⟨(hk.current.activate ho).current, ?_, hk.sized.run _⟩
        rw [writeFlags_self]
        exact hk.data_eq
    · obtain rfl := cut_nil_iff.mp hc
      exact hk

/-- No prefix of a write of `d` into an erased sector has the erased checksum. -/
def TornInvalid (d : List UInt8) : Prop :=
  ∀ k < d.length, crc32 0 (d.take k ++ erased (d.length - k)) ≠ 0xffffffff

/-- The spare sector after its erase and a write of `buf` to its data. -/
theorem erase_writeData (hn : Sized n f) {buf : List UInt8} (hb : buf.length ≤ n) :
    (Op.writeData s buf).run ((Op.erase s).run f) s =
      ⟨erased 4, 0xff, buf ++ erased (n - buf.length), erase (f s).rest⟩ := by
  obtain ⟨hd, hc⟩ := hn s
  simp only [Op.run, Function.update_self, Lib.NorFlash.erase, hd, hc, program_erased hb]

/-- The copy that is being written is valid only when its data are complete. -/
structure Writing (n : ℕ) (d : List UInt8) (f : Flash) (a : Side) (f' : Flash) : Prop where
  same : f' a = f a
  flags_eq : (f' a.other).flags = 0xff
  complete : (f' a.other).crcOk = true → (f' a.other).data = d
  sized : Sized n f'

theorem ofBe32_erased : ofBe32 (erased 4) = 0xffffffff := by decide

section Save

variable {a : Side} {d : List UInt8}

theorem writing_data (hn : Sized n f) (hd : d.length = n) (ht : TornInvalid d) (k : ℕ) :
    Writing n d f a ((Op.writeData a.other (d.take k)).run ((Op.erase a.other).run f)) := by
  have ho := erase_writeData (s := a.other) hn (show (d.take k).length ≤ n by
    rw [List.length_take]
    omega)
  refine ⟨?_, by rw [ho], ?_, (hn.run _).run _⟩
  · rw [run_ne _ _ (ne_other a), run_ne _ _ (ne_other a)]
  · rw [ho]
    by_cases hk : k < d.length
    · have hl : (d.take k).length = k := by
        rw [List.length_take]
        omega
      simp only [Sector.crcOk, ofBe32_erased, beq_iff_eq, hl, ← hd]
      exact fun h ↦ absurd h (ht k hk)
    · rw [List.take_of_length_le (Nat.not_lt.mp hk), hd]
      simp [erased]

theorem data_written (hn : Sized n f) (hd : d.length = n) :
    (Op.writeData a.other d).run ((Op.erase a.other).run f) a.other =
      ⟨erased 4, 0xff, d, erase (f a.other).rest⟩ := by
  rw [erase_writeData hn hd.le, hd]
  simp [erased]

theorem writing_crc (hn : Sized n f) (hd : d.length = n) (buf : List UInt8) :
    Writing n d f a ((Op.writeCrc a.other buf).run
      ((Op.writeData a.other d).run ((Op.erase a.other).run f))) := by
  have ho := data_written (a := a) hn hd
  generalize hf : (Op.writeData a.other d).run ((Op.erase a.other).run f) = f₂ at ho
  have ha : f₂ a = f a := by rw [← hf, run_ne _ _ (ne_other a), run_ne _ _ (ne_other a)]
  have hs : Sized n f₂ := by
    rw [← hf]
    exact (hn.run _).run _
  refine ⟨by rw [run_ne _ _ (ne_other a), ha], ?_, ?_, hs.run _⟩
  · simp [Op.run, ho]
  · simp [Op.run, ho]

/-- A flash whose next boot loads `x`; `none` is the default environment. -/
def Holds (f : Flash) : Option (List UInt8) → Prop
  | none => NoCopy f
  | some d => ∃ s, Current f s ∧ (f s).data = d

/-- The flash the running boot loader relies on: its copy is settled, or there is none. -/
def Base (f : Flash) (a : Side) : Option (List UInt8) → Prop
  | none => NoCopy f
  | some d => Settled f a ∧ (f a).data = d

theorem Base.holds {x : Option (List UInt8)} (h : Base f a x) : Holds f x := by
  cases x with
  | none => exact h
  | some d => exact ⟨a, h.1.current, h.2⟩

/-- While the spare copy is written, a boot takes the old environment or the complete new one. -/
theorem Writing.holds {x : Option (List UInt8)} (hb : Base f a x) (h : Writing n d f a f') :
    Holds f' x ∨ Holds f' (some d) := by
  cases ho : (f' a.other).crcOk with
  | false =>
    left
    cases x with
    | none =>
      intro t
      by_cases hta : t = a
      · rw [hta, h.same]
        exact hb a
      · obtain rfl : t = a.other := by cases t <;> cases a <;> simp_all [Side.other]
        exact ho
    | some d' =>
      obtain ⟨⟨hok, hfl, -⟩, hdata⟩ := hb
      refine ⟨a, ⟨by rwa [h.same], .inl ⟨by rwa [h.same], ?_⟩⟩, by rwa [h.same]⟩
      simp [ho]
  | true =>
    right
    refine ⟨a.other, ⟨ho, .inr ⟨h.flags_eq, ?_⟩⟩, h.complete ho⟩
    rw [other_other, h.same]
    cases x with
    | none => simp [hb a]
    | some d' => exact fun _ ↦ .inr hb.1.2.1

theorem copy_written (hn : Sized n f) (hd : d.length = n) :
    (Op.writeCrc a.other (be32 (crc32 0 d))).run
        ((Op.writeData a.other d).run ((Op.erase a.other).run f)) a.other =
      ⟨be32 (crc32 0 d), 0xff, d, erase (f a.other).rest⟩ := by
  have hp : program (erased 4) (be32 (crc32 0 d)) = be32 (crc32 0 d) := by
    rw [program_erased (be32_length _).le, be32_length]
    simp [erased]
  rw [writeCrc_self, data_written hn hd, hp]

/-- A sector holds a complete copy of `d`. -/
def HasCopy (d : List UInt8) (s : Sector) : Prop := s.crc = be32 (crc32 0 d) ∧ s.data = d

theorem HasCopy.crcOk {t : Sector} (h : HasCopy d t) : t.crcOk = true := by
  simp [Sector.crcOk, h.1, h.2]

/-- The two flags: first the old copy becomes obsolete, then the new one active. -/
theorem flags_written (hc : HasCopy d (f a.other)) (hfl : (f a.other).flags = 0xff) :
    Current ((Op.writeFlags a obsoleteFlag).run f) a.other ∧
      Settled ((Op.writeFlags a.other activeFlag).run ((Op.writeFlags a obsoleteFlag).run f))
        a.other := by
  have ho : (Op.writeFlags a obsoleteFlag).run f a.other = f a.other := run_ne _ _ (other_ne a)
  have ha : ((Op.writeFlags a obsoleteFlag).run f a).flags = 0 := by
    rw [writeFlags_self]
    exact UInt8.and_zero
  have hcur : Current ((Op.writeFlags a obsoleteFlag).run f) a.other := by
    refine ⟨by rw [ho]; exact hc.crcOk, .inr ⟨by rw [ho]; exact hfl, fun _ ↦ .inl ?_⟩⟩
    rw [other_other, ha]
  refine ⟨hcur, hcur.activate fun _ ↦ ?_⟩
  rw [other_other, ha]

theorem Settled.writeRest (h : Settled f a) (buf : List UInt8) :
    Settled ((Op.writeRest a buf).run f) a := by
  have ho : (Op.writeRest a buf).run f a.other = f a.other := run_ne _ f (other_ne a)
  rw [Settled, ho, writeRest_self]
  exact h

theorem saveenv_run (hn : Sized n f) {r : Ram} (ha : r.flash_addr = a) (hd : r.env.data.length = n)
    (hcrc : r.env.crc = crc32 0 r.env.data) :
    Settled (saveenv r f).1 a.other ∧ ((saveenv r f).1 a.other).data = r.env.data ∧
      Sized n (saveenv r f).1 := by
  have hw := copy_written (a := a) hn hd
  simp only [saveenv, saveenvOps, runAll_cons, runAll_nil, ha, hcrc]
  generalize hf : (Op.writeCrc a.other _).run _ = f₃ at hw
  have hs : Sized n f₃ := by
    rw [← hf]
    exact ((hn.run _).run _).run _
  obtain ⟨-, hset⟩ := flags_written (f := f₃) (a := a) ⟨by rw [hw], by rw [hw]⟩ (by rw [hw])
  refine ⟨hset.writeRest _, ?_, ((hs.run _).run _).run _⟩
  have ho : (Op.writeFlags a obsoleteFlag).run f₃ a.other = f₃ a.other := run_ne _ _ (other_ne a)
  rw [writeRest_self, writeFlags_self, ho, hw]

theorem flags_cut (hn : Sized n f) (hcopy : HasCopy d (f a.other))
    (hfl : (f a.other).flags = 0xff) {rest : List UInt8}
    (hc : Cut Op.run Op.torn [.writeFlags a obsoleteFlag, .writeFlags a.other activeFlag,
      .writeRest a.other rest] f f') :
    f' = f ∨ Sized n f' ∧ Holds f' (some d) := by
  obtain ⟨hcur, hset⟩ := flags_written hcopy hfl
  have ho : (Op.writeFlags a obsoleteFlag).run f a.other = f a.other := run_ne _ _ (other_ne a)
  have hrest (buf : List UInt8) : Holds ((Op.writeRest a.other buf).run
      ((Op.writeFlags a.other activeFlag).run ((Op.writeFlags a obsoleteFlag).run f)))
        (some d) := by
    refine ⟨a.other, (hset.writeRest buf).current, ?_⟩
    rw [writeRest_self, writeFlags_self, ho]
    exact hcopy.2
  simp only [cut_cons_iff, cut_nil_iff, Op.torn, false_or] at hc
  obtain rfl | rfl | rfl | ⟨k, rfl⟩ | rfl := hc
  · exact .inl rfl
  · exact .inr ⟨hn.run _, a.other, hcur, by rw [ho, hcopy.2]⟩
  · refine .inr ⟨(hn.run _).run _, a.other, hset.current, ?_⟩
    rw [writeFlags_self, ho]
    exact hcopy.2
  · exact .inr ⟨((hn.run _).run _).run _, hrest _⟩
  · exact .inr ⟨((hn.run _).run _).run _, hrest _⟩

theorem writeData_nil (f : Flash) (s : Side) : (Op.writeData s []).run f = f := by
  rw [Op.run, program_nil]
  exact Function.update_eq_self s f

/-- Wherever a save is cut, the next boot takes the old environment or the one being saved. -/
theorem saveenv_cut (hn : Sized n f) {r : Ram} (hd : r.env.data.length = n)
    (hcrc : r.env.crc = crc32 0 r.env.data) (ht : TornInvalid r.env.data)
    {x : Option (List UInt8)} (hb : Base f r.flash_addr x)
    (hc : Cut Op.run Op.torn (saveenvOps r f) f f') :
    Sized n f' ∧ (Holds f' x ∨ Holds f' (some r.env.data)) := by
  have writing {f' : Flash} (hw : Writing n r.env.data f r.flash_addr f') :
      Sized n f' ∧ (Holds f' x ∨ Holds f' (some r.env.data)) := ⟨hw.sized, hw.holds hb⟩
  rw [saveenvOps, cut_cons_iff] at hc
  obtain rfl | hc | hc := hc
  · exact ⟨hn, .inl hb.holds⟩
  · exact hc.elim
  rw [cut_cons_iff] at hc
  obtain rfl | ⟨k, rfl⟩ | hc := hc
  · have hw := writing_data (a := r.flash_addr) hn hd ht 0
    rw [List.take_zero, writeData_nil] at hw
    exact writing hw
  · exact writing (writing_data hn hd ht k)
  rw [cut_cons_iff] at hc
  obtain rfl | ⟨k, rfl⟩ | hc := hc
  · have hw := writing_data (a := r.flash_addr) hn hd ht n
    rw [List.take_of_length_le hd.le] at hw
    exact writing hw
  · exact writing (writing_crc hn hd _)
  have hw := writing_crc (a := r.flash_addr) hn hd (be32 r.env.crc)
  have hcopy := copy_written (a := r.flash_addr) hn hd
  rw [hcrc] at hw hc
  generalize (Op.writeCrc r.flash_addr.other _).run _ = f₃ at hw hcopy hc
  obtain rfl | ⟨hs, hh⟩ := flags_cut hw.sized ⟨by rw [hcopy], by rw [hcopy]⟩ hw.flags_eq hc
  · exact writing hw
  · exact ⟨hs, .inr hh⟩

end Save

end UBoot.Env.PowerFailAtomic
