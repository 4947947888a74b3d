import UBoot.LibMips.CommandLine

namespace UBoot.LibMips.ArgumentTable

open Lib.CString Lib.Memory MipsLinux CommandLine

/-- The ranges of `n` bytes at `a` and of `k` bytes at `b` have no byte in common. -/
def Apart (a n b k : ℕ) : Prop := a + n ≤ b ∨ b + k ≤ a

/-- A store goes to an entry of its table, or to a place outside of both tables. -/
def Write.InBounds (linuxArgv linuxEnv : ℕ) : Write → Prop
  | .argv table index _ => table = linuxArgv ∧ index < linuxMaxArgs
  | .env table index _ => table = linuxEnv ∧ index < linuxMaxEnvs
  | .text addr bs => Apart addr bs.length linuxArgv (4 * linuxMaxArgs) ∧
      Apart addr bs.length linuxEnv (4 * linuxMaxEnvs)

structure InBounds (s : Params) : Prop where
  writes : ∀ w ∈ s.writes, Write.InBounds s.linuxArgv s.linuxEnv w
  tables : Apart s.linuxArgv (4 * linuxMaxArgs) s.linuxEnv (4 * linuxMaxEnvs)

/-- No null pointer is read, and all stores are in bounds. -/
def Safe (soc : Soc) (b : BootInfo) (start : ℕ) (bootargs : Option CStr) : Prop :=
  ∃ s, bootParams soc b start bootargs = some s ∧ InBounds s

/-- The entry for the size of the memory, when it is added, is free. -/
def RoomForMem (soc : Soc) (line : CStr) : Prop :=
  soc.addsMem = true → contains line (ascii "mem=") = false →
    (pieces line).length + 1 < linuxMaxArgs

/-- A store in front of the table of the environment. -/
def Write.Early (linuxArgv argp : ℕ) : Write → Prop
  | .argv table index _ => table = linuxArgv ∧ index < linuxMaxArgs
  | .env _ _ _ => False
  | .text addr bs => linuxArgv + 4 * linuxMaxArgs ≤ addr ∧ addr + bs.length ≤ argp

structure Early (s : Params) : Prop where
  writes : ∀ w ∈ s.writes, Write.Early s.linuxArgv s.argp w
  argp : s.linuxArgv + 4 * linuxMaxArgs ≤ s.argp

section Stores

variable {soc : Soc} {s : Params} {p : CStr}

theorem Write.Early.mono {argv a b : ℕ} (hab : a ≤ b) {w : Write} (h : Write.Early argv a w) :
    Write.Early argv b w := by
  cases w with
  | argv table index value => exact h
  | env table index value => exact h
  | text addr bs => exact ⟨h.1, h.2.trans hab⟩

theorem Early.addArg (soc : Soc) (p : CStr) (h : Early s) (hargc : s.linuxArgc < linuxMaxArgs) :
    Early (addArg soc s p) := by
  have hargp := h.argp
  have hmono : s.argp ≤ s.argp + p.length + 1 := by omega
  refine ⟨fun w hw ↦ ?_, hargp.trans hmono⟩
  simp only [MipsLinux.addArg, List.mem_append, List.mem_cons, List.not_mem_nil, or_false,
    Option.mem_toList, Option.map_eq_some_iff] at hw
  rcases hw with (hw | rfl | rfl) | ⟨name, hname, rfl⟩
  · exact (h.writes w hw).mono hmono
  · exact ⟨rfl, hargc⟩
  · refine ⟨hargp, ?_⟩
    rw [List.length_append, List.length_singleton]
    exact Nat.le_refl _
  · have hlt := revision_length hname
    refine ⟨hargp, ?_⟩
    change _ ≤ s.argp + p.length + 1
    rw [List.length_append, List.length_singleton]
    omega

theorem Early.foldl (h : Early s) (ps : List CStr) (hargc : s.linuxArgc + ps.length ≤ linuxMaxArgs) :
    Early (ps.foldl (MipsLinux.addArg soc) s) ∧
      (ps.foldl (MipsLinux.addArg soc) s).linuxArgc = s.linuxArgc + ps.length := by
  induction ps generalizing s with
  | nil => exact ⟨h, rfl⟩
  | cons p ps ih =>
    rw [List.length_cons] at hargc
    have hargc' : (MipsLinux.addArg soc s p).linuxArgc = s.linuxArgc + 1 := rfl
    obtain ⟨hearly, hcount⟩ := ih (h.addArg soc p (by omega)) (by omega)
    refine ⟨hearly, ?_⟩
    rw [List.foldl_cons, hcount, List.length_cons, hargc']
    omega

theorem Early.addMem (ramSize : ℕ) (h : Early s) (hargc : s.linuxArgc < linuxMaxArgs) :
    Early (addMem ramSize s) := by
  have hargp := h.argp
  have hmono : s.argp ≤ s.argp + (memstr ramSize).length + 1 := by omega
  refine ⟨fun w hw ↦ ?_, hargp.trans hmono⟩
  simp only [MipsLinux.addMem, List.mem_append, List.mem_cons, List.not_mem_nil, or_false] at hw
  rcases hw with hw | rfl | rfl
  · exact (h.writes w hw).mono hmono
  · refine ⟨hargp, ?_⟩
    rw [List.length_append, List.length_singleton]
    exact Nat.le_refl _
  · exact ⟨rfl, hargc⟩

/-- All stores are in bounds, and the environment goes on behind its table. -/
structure Late (s : Params) : Prop where
  inBounds : InBounds s
  front : s.linuxArgv + 4 * linuxMaxArgs ≤ s.linuxEnv
  envP : s.linuxEnv + 4 * linuxMaxEnvs ≤ s.linuxEnvP

theorem Early.initEnv (h : Early s) : Late (initEnv s) := by
  have hargp := h.argp
  have hle : s.argp ≤ (s.argp + 15) / 16 * 16 := by omega
  refine ⟨⟨fun w hw ↦ ?_, .inl (hargp.trans hle)⟩, hargp.trans hle, Nat.le_refl _⟩
  simp only [MipsLinux.initEnv, List.mem_append, List.mem_singleton] at hw
  rcases hw with hw | rfl
  · have hw' := h.writes w hw
    cases w with
    | argv table index value => exact hw'
    | env table index value => exact hw'.elim
    | text addr bs => exact ⟨.inr hw'.1, .inl (hw'.2.trans hle)⟩
  · exact ⟨rfl, by decide⟩

theorem Late.linuxEnvSet (h : Late s) (envName envVal : CStr) :
    Late (linuxEnvSet s envName envVal) := by
  have hfront := h.front
  have henvP := h.envP
  rw [MipsLinux.linuxEnvSet]
  split_ifs with hidx
  · refine ⟨⟨fun w hw ↦ ?_, .inl hfront⟩, hfront, by dsimp only; omega⟩
    have htext (addr : ℕ) (bs : List UInt8) (ha : s.linuxEnvP ≤ addr) :
        Write.InBounds s.linuxArgv s.linuxEnv (.text addr bs) :=
      ⟨.inr (by omega), .inr (by omega)⟩
    simp only [List.mem_append, List.mem_cons, List.not_mem_nil, or_false] at hw
    rw [linuxMaxEnvs] at hidx
    rcases hw with hw | rfl | rfl | rfl | rfl | rfl
    · exact h.inBounds.writes w hw
    · exact ⟨rfl, by rw [linuxMaxEnvs]; omega⟩
    · exact htext _ _ (Nat.le_refl _)
    · exact htext _ _ (by omega)
    · exact htext _ _ (by omega)
    · exact ⟨rfl, by rw [linuxMaxEnvs]; omega⟩
  · exact h

theorem Late.foldl (h : Late s) (vs : List (CStr × CStr)) :
    Late (vs.foldl (fun s v ↦ MipsLinux.linuxEnvSet s v.1 v.2) s) := by
  induction vs generalizing s with
  | nil => exact h
  | cons v vs ih => exact ih (h.linuxEnvSet v.1 v.2)

/-- Stores stay where they are. -/
theorem mem_foldl {w : Write} (hw : w ∈ s.writes) (vs : List (CStr × CStr)) :
    w ∈ (vs.foldl (fun s v ↦ MipsLinux.linuxEnvSet s v.1 v.2) s).writes ∧
      (vs.foldl (fun s v ↦ MipsLinux.linuxEnvSet s v.1 v.2) s).linuxArgv = s.linuxArgv := by
  induction vs generalizing s with
  | nil => exact ⟨hw, rfl⟩
  | cons v vs ih =>
    have hstep : w ∈ (MipsLinux.linuxEnvSet s v.1 v.2).writes ∧
        (MipsLinux.linuxEnvSet s v.1 v.2).linuxArgv = s.linuxArgv := by
      rw [MipsLinux.linuxEnvSet]
      split_ifs
      · exact ⟨List.mem_append_left _ hw, rfl⟩
      · exact ⟨hw, rfl⟩
    obtain ⟨hmem, hargv⟩ := ih hstep.1
    exact ⟨hmem, hargv.trans hstep.2⟩

end Stores

section Run

variable (soc : Soc) (b : BootInfo) (start : ℕ) (line : CStr)

theorem begin_early : Early (begin start) := by
  refine ⟨fun w hw ↦ ?_, Nat.le_refl _⟩
  cases List.mem_singleton.mp hw
  exact ⟨rfl, by decide⟩

/-- The arguments of the line fit, and they are as many as there is room for. -/
theorem loop_early :
    Early (((pieces line).take (linuxMaxArgs - 1)).foldl (addArg soc) (begin start)) ∧
      (((pieces line).take (linuxMaxArgs - 1)).foldl (addArg soc) (begin start)).linuxArgc =
        1 + min (linuxMaxArgs - 1) (pieces line).length := by
  rw [← List.length_take]
  apply (begin_early start).foldl
  have hle := List.length_take_le (linuxMaxArgs - 1) (pieces line)
  have hargc : (begin start).linuxArgc = 1 := rfl
  rw [hargc]
  rw [linuxMaxArgs] at *
  omega

theorem bootParams_eq : bootParams soc b start (some line) =
    some ((bootEnv b).foldl (fun s v ↦ linuxEnvSet s v.1 v.2)
      (initEnv (if soc.addsMem && !contains line (ascii "mem=") then
        addMem b.ramSize (((pieces line).take (linuxMaxArgs - 1)).foldl (addArg soc) (begin start))
        else ((pieces line).take (linuxMaxArgs - 1)).foldl (addArg soc) (begin start)))) := by
  rw [bootParams, linuxParamsInit_eq]
  rfl

theorem safe_some_iff : Safe soc b start (some line) ↔ RoomForMem soc line := by
  obtain ⟨hearly, hargc⟩ := loop_early soc start line
  rw [Safe, bootParams_eq, RoomForMem]
  generalize ((pieces line).take (linuxMaxArgs - 1)).foldl (addArg soc) (begin start) = s
    at hearly hargc ⊢
  split_ifs with hadds
  · rw [Bool.and_eq_true, Bool.not_eq_true'] at hadds
    constructor
    · rintro ⟨t, ht, hbounds⟩ - -
      cases ht
      have hmem : Write.argv s.linuxArgv s.linuxArgc s.argp ∈ (initEnv (addMem b.ramSize s)).writes := by
        simp [initEnv, addMem]
      have hlt := (hbounds.writes _ (mem_foldl hmem _).1).2
      rw [hargc, linuxMaxArgs] at hlt
      rw [linuxMaxArgs]
      omega
    · intro hroom
      have hlt := hroom hadds.1 hadds.2
      have hlate := (hearly.addMem b.ramSize (by omega)).initEnv
      exact ⟨_, rfl, (hlate.foldl (bootEnv b)).inBounds⟩
  · refine iff_of_true ⟨_, rfl, (hearly.initEnv.foldl (bootEnv b)).inBounds⟩ fun hsoc hline ↦ ?_
    exact absurd (by simp [hsoc, hline]) hadds

/-- The parameters are safe exactly when `bootargs` is set and there is room for the size of the
memory. -/
theorem argument_table_safe_iff (soc : Soc) (b : BootInfo) (start : ℕ) (bootargs : Option CStr) :
    Safe soc b start bootargs ↔ ∃ line, bootargs = some line ∧ RoomForMem soc line := by
  cases bootargs with
  | none =>
    constructor
    · rintro ⟨s, hs, -⟩
      cases hs
    · rintro ⟨line, hline, -⟩
      cases hline
  | some line =>
    rw [safe_some_iff]
    constructor
    · intro h
      exact ⟨line, rfl, h⟩
    · rintro ⟨line', hline, h⟩
      cases hline
      exact h

def someBoard : BootInfo := ⟨0x2000000, 0, 0, 0xbf000000, 0x400000⟩

/-- 255 words. -/
def manyWords : CStr := (List.replicate 255 [0x61, blank]).flatten

/-- Without `bootargs`, `strstr` reads through a null pointer; 255 words leave no entry for the size
of the memory. -/
theorem argument_table_unsafe :
    ¬ Safe .ar9100 someBoard 0xa0000000 none ∧
      ¬ Safe .ar9100 someBoard 0xa0000000 (some manyWords) := by
  constructor
  · rintro ⟨s, hs, -⟩
    cases hs
  · rw [safe_some_iff]
    intro h
    have hlen : (pieces manyWords).length = 255 := by decide +kernel
    have hlt := h rfl (by decide +kernel)
    rw [hlen] at hlt
    exact absurd hlt (by decide)

end Run

end UBoot.LibMips.ArgumentTable
