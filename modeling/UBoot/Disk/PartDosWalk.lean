import UBoot.Disk.PartDosListing
import UBoot.Lib.Cycle

namespace UBoot.Disk.PartDosWalk

open Lib.Memory Lib.TreeWalk PartDos PartDosListing

/-- The table that the lookup goes to behind this one. -/
def firstChild (dev : BlockDev) (t : UInt32 × UInt32) : List (UInt32 × UInt32) :=
  match dev.read t.1 with
  | none => []
  | some buffer => if testBlockType buffer = none then [] else (extended t buffer).head?.toList

/-- The recursions end, and no sector is read twice. -/
structure WalksOnce (dev : BlockDev) : Prop where
  print : ∃ fuel out, printPartDos dev fuel = some out ∧ out.reads.Nodup
  get : ∀ n, ∃ fuel got, getPartitionInfoDos dev n fuel = some got ∧ got.reads.Nodup

/-- No two chains of extended entries lead from the MBR to one sector, of all the entries and of the
first ones in their tables. -/
structure Tree (dev : BlockDev) : Prop where
  all : Unrepeated (children dev) Prod.fst (0, 0)
  first : Unrepeated (firstChild dev) Prod.fst (0, 0)

section Get

variable {dev : BlockDev} {whichPart fuel partNum : ℕ} {t : UInt32 × UInt32} {l : List UInt32}
variable {got : Got}

theorem walk_single {children : UInt32 × UInt32 → List (UInt32 × UInt32)} {c : UInt32 × UInt32}
    (hc : children t = [c]) : walk children Prod.fst (fuel + 1) t =
      (walk children Prod.fst fuel c).map (t.1 :: ·) := by
  rw [walk, hc, List.mapM_cons, List.mapM_nil]
  cases walk children Prod.fst fuel c with
  | none => rfl
  | some l =>
    rw [Option.map_some]
    exact congrArg (fun l ↦ some (t.1 :: l)) (List.append_nil l)

theorem walk_end {children : UInt32 × UInt32 → List (UInt32 × UInt32)} (hc : children t = []) :
    walk children Prod.fst (fuel + 1) t = some [t.1] := by
  rw [walk, hc]
  rfl

/-- The lookup ends in front of the end of the walk, or there. -/
theorem get_prefix (whichPart partNum : ℕ) (h : walk (firstChild dev) Prod.fst fuel t = some l) :
    ∃ got, getPartitionInfoExtended dev whichPart fuel t.1 t.2 partNum = some got ∧
      got.reads <+: l ∧ (got.info = none → got.reads = l) := by
  induction fuel generalizing t partNum l with
  | zero => cases h
  | succ fuel ih =>
    have hfirst : ∀ l', [t.1] <+: t.1 :: l' := fun l' ↦ ⟨l', rfl⟩
    rw [getPartitionInfoExtended]
    cases hread : dev.read t.1 with
    | none =>
      rw [walk_end (by rw [firstChild, hread])] at h
      cases h
      exact ⟨_, rfl, hfirst [], fun _ ↦ rfl⟩
    | some buffer =>
      simp only
      split_ifs with hmagic
      · rw [walk_end (by rw [firstChild, hread]; exact if_pos (testBlockType_eq_none.mpr hmagic))] at h
        cases h
        exact ⟨_, rfl, hfirst [], fun _ ↦ rfl⟩
      · have hchild : firstChild dev t = (extended t buffer).head?.toList := by
          rw [firstChild, hread]
          exact if_neg (testBlockType_eq_none.not.mpr hmagic)
        rw [head?_extended] at hchild
        cases hfind : findPart dev t.1 whichPart (table buffer) partNum with
        | inl info =>
          rw [walk, Option.map_eq_some_iff] at h
          obtain ⟨ls, -, rfl⟩ := h
          exact ⟨_, rfl, hfirst _, fun hnone ↦ by cases hnone⟩
        | inr partNum =>
          cases hext : (table buffer).find? fun pt ↦ isExtended pt.sysInd with
          | none =>
            rw [walk_end (by rw [hchild, hext]; rfl)] at h
            cases h
            exact ⟨_, rfl, hfirst [], fun _ ↦ rfl⟩
          | some pt =>
            rw [walk_single (by rw [hchild, hext]; rfl), Option.map_eq_some_iff] at h
            obtain ⟨rest, hrest, rfl⟩ := h
            obtain ⟨got, hgot, hprefix, hall⟩ := ih partNum hrest
            refine ⟨⟨t.1 :: got.reads, got.info⟩, ?_, ?_, ?_⟩
            · simp only [hgot, Option.map_some]
            · exact (List.prefix_cons_inj t.1).mpr hprefix
            · exact fun hnone ↦ congrArg (t.1 :: ·) (hall hnone)

/-- A lookup that finds nothing walks to the end. -/
theorem walk_of_get (h : getPartitionInfoExtended dev whichPart fuel t.1 t.2 partNum = some got)
    (hnone : got.info = none) : walk (firstChild dev) Prod.fst fuel t = some got.reads := by
  induction fuel generalizing t partNum got with
  | zero => cases h
  | succ fuel ih =>
    rw [getPartitionInfoExtended] at h
    cases hread : dev.read t.1 with
    | none =>
      simp only [hread, Option.some.injEq] at h
      subst h
      exact walk_end (by rw [firstChild, hread])
    | some buffer =>
      simp only [hread] at h
      split_ifs at h with hmagic
      · cases h
        exact walk_end (by rw [firstChild, hread]; exact if_pos (testBlockType_eq_none.mpr hmagic))
      · have hchild : firstChild dev t = (extended t buffer).head?.toList := by
          rw [firstChild, hread]
          exact if_neg (testBlockType_eq_none.not.mpr hmagic)
        rw [head?_extended] at hchild
        cases hfind : findPart dev t.1 whichPart (table buffer) partNum with
        | inl info =>
          simp only [hfind, Option.some.injEq] at h
          subst h
          cases hnone
        | inr partNum =>
          cases hext : (table buffer).find? fun pt ↦ isExtended pt.sysInd with
          | none =>
            simp only [hfind, hext, Option.some.injEq] at h
            subst h
            exact walk_end (by rw [hchild, hext]; rfl)
          | some pt =>
            simp only [hfind, hext, Option.map_eq_some_iff] at h
            obtain ⟨got, hgot, rfl⟩ := h
            rw [walk_single (by rw [hchild, hext]; rfl), ih hgot hnone, Option.map_some]

end Get

theorem walks_once_iff (dev : BlockDev) : WalksOnce dev ↔ Tree dev := by
  have hfinite : Finite UInt32 := Lib.Cycle.finite_uint32
  have hprint : (∃ fuel out, printPartDos dev fuel = some out ∧ out.reads.Nodup) ↔
      Unrepeated (children dev) Prod.fst (0, 0) := by
    rw [← walk_nodup_iff]
    refine exists_congr fun fuel ↦ ?_
    rw [← reads_print dev fuel (0, 0) 1]
    simp only [Option.map_eq_some_iff]
    constructor
    · rintro ⟨out, hout, hnodup⟩
      exact ⟨out.reads, ⟨out, hout, rfl⟩, hnodup⟩
    · rintro ⟨_, ⟨out, hout, rfl⟩, hnodup⟩
      exact ⟨out, hout, hnodup⟩
  constructor
  · intro h
    refine ⟨hprint.mp h.print, walk_nodup_iff.mp ?_⟩
    -- no partition has the number 0
    obtain ⟨fuel, got, hgot, hnodup⟩ := h.get 0
    have hnone : got.info = none := by
      by_contra hsome
      obtain ⟨found, hfound⟩ := Option.ne_none_iff_exists'.mp hsome
      have hge := get_ge (t := (0, 0)) hgot hfound
      omega
    exact ⟨fuel, got.reads, walk_of_get (t := (0, 0)) hgot hnone, hnodup⟩
  · intro h
    refine ⟨hprint.mpr h.all, fun n ↦ ?_⟩
    obtain ⟨fuel, l, hwalk, hnodup⟩ := walk_nodup_iff.mpr h.first
    obtain ⟨got, hgot, hprefix, -⟩ := get_prefix n 1 hwalk
    exact ⟨fuel, got, hgot, hnodup.sublist hprefix.sublist⟩

/-- An extended partition whose table has an extended entry for the table itself. -/
def selfExtended : BlockDev where
  ifType := 4
  dev := 0
  lba := 64
  read sector :=
    if sector = 0 then some (tableOf 5 16 16) else if sector = 16 then some (tableOf 5 0 0) else none

theorem print_self_endless : (∀ fuel, printPartDos selfExtended fuel = none) ∧
    ¬ WalksOnce selfExtended := by
  have hchildren : children selfExtended (0, 0) = [(16, 16), (16, 16)] ∧
      children selfExtended (16, 16) = [(16, 16), (16, 16)] := by
    decide +kernel
  have hmbr : ∀ type start, type = 5 → testBlockType (tableOf type start start) = some .mbr := by
    rintro _ start rfl
    rfl
  have hself : ∀ fuel partNum out,
      printPartitionExtended selfExtended fuel 16 16 partNum ≠ some out := by
    intro fuel
    induction fuel with
    | zero => exact fun partNum out h ↦ by cases h
    | succ fuel ih =>
      intro partNum out h
      obtain ⟨outs, houts, -⟩ :=
        (print_mbr (t := (16, 16)) rfl (hmbr 5 0 rfl)).mp h
      rw [hchildren.2] at houts
      obtain _ | ⟨hout, -⟩ := houts
      exact ih _ _ hout
  have hnone : ∀ fuel, printPartDos selfExtended fuel = none := by
    intro fuel
    rw [Option.eq_none_iff_forall_ne_some]
    intro out h
    cases fuel with
    | zero => cases h
    | succ fuel =>
      obtain ⟨outs, houts, -⟩ :=
        (print_mbr (t := (0, 0)) rfl (hmbr 5 16 rfl)).mp h
      rw [hchildren.1] at houts
      obtain _ | ⟨hout, -⟩ := houts
      exact hself _ _ _ hout
  refine ⟨hnone, fun h ↦ ?_⟩
  obtain ⟨fuel, out, hout, -⟩ := h.print
  rw [hnone fuel] at hout
  cases hout

end UBoot.Disk.PartDosWalk
