import UBoot.Disk.PartDos

namespace UBoot.Disk.PartDosListing

open Lib.CString Lib.Memory Lib.TreeWalk PartDos

/-- The lines for partitions that are not extended. -/
def partitions (lines : List Line) : List Line := lines.filter fun line ↦ !line.extd

def IsPartition (pt : DosPartition) : Prop := pt.sysInd ≠ 0 ∧ isExtended pt.sysInd = false

/-- A disk with an MBR in front and extended partitions that end. -/
structure DosDisk where
  dev : BlockDev
  buffer : Mem
  read : dev.read 0 = some buffer
  mbr : testBlockType buffer = some .mbr
  finite : ∃ n, ∀ p, (follow (children dev) p (0, 0)).isSome → p.length ≤ n

/-- The lookup of a number succeeds. -/
def Succeeds (dev : BlockDev) (n : ℕ) (start size : UInt32) : Prop :=
  ∃ fuel got info, getPartitionInfoDos dev n fuel = some got ∧ got.info = some info ∧
    info.start = start ∧ info.size = size

/-- The partitions that are printed are those that the lookup finds, and have their own numbers. -/
structure Agrees (dev : BlockDev) (lines : List Line) : Prop where
  lookup : ∀ n start size, (∃ line ∈ partitions lines,
    line.partNum = n ∧ line.lbaStart = start ∧ line.lbaSize = size) ↔ Succeeds dev n start size
  unique : ((partitions lines).map (·.partNum)).Nodup

/-- No extended partition begins with a FAT boot record. -/
def NoPbr (dev : BlockDev) (t : UInt32 × UInt32) : Prop :=
  ∀ u, Reaches (children dev) t u → ∀ buffer, dev.read u.1 = some buffer → testBlockType buffer ≠ some .pbr

/-- A table, when it is one, without partitions. -/
def Empty (dev : BlockDev) (u : UInt32 × UInt32) : Prop :=
  ∀ buffer, dev.read u.1 = some buffer → testBlockType buffer = some .mbr →
    ∀ pt ∈ table buffer, ¬ IsPartition pt

/-- No partition is behind an extended entry that is not the first one of its table. -/
def Single (dev : BlockDev) (t : UInt32 × UInt32) : Prop :=
  ∀ u, Reaches (children dev) t u → ∀ c ∈ (children dev u).tail, ∀ v, Reaches (children dev) c v → Empty dev v

/-- The extended partitions are those that fdisk makes. -/
structure Plain (dev : BlockDev) : Prop where
  noPbr : NoPbr dev (0, 0)
  single : Single dev (0, 0)

/-- What the lookup goes through without a number to stop at. -/
def chain (dev : BlockDev) : ℕ → UInt32 × UInt32 → ℕ → Option (List Line)
  | 0, _, _ => none
  | fuel + 1, t, partNum =>
    match dev.read t.1 with
    | none => some []
    | some buffer =>
      if testBlockType buffer = none then some []
      else
        let (lines, partNum) := printTable t.1 (table buffer) partNum
        match (extended t buffer).head? with
        | none => some (partitions lines)
        | some c => (chain dev fuel c partNum).map (partitions lines ++ ·)

section Table

variable {dev : BlockDev} {extPartSector : UInt32}

/-- The numbers in a table go up to `part_num` behind it. -/
theorem printTable_numbers (extPartSector : UInt32) (pts : List DosPartition) (partNum : ℕ) :
    partNum ≤ (printTable extPartSector pts partNum).2 ∧
      (∀ line ∈ (printTable extPartSector pts partNum).1,
        partNum ≤ line.partNum ∧ line.partNum < (printTable extPartSector pts partNum).2) ∧
      (printTable extPartSector pts partNum).1.Pairwise fun a b ↦ a.partNum < b.partNum := by
  induction pts generalizing partNum with
  | nil => exact ⟨Nat.le_refl _, List.forall_mem_nil _, List.Pairwise.nil⟩
  | cons pt pts ih =>
    obtain ⟨hle, hlines, hascending⟩ := ih (nextNum extPartSector pt partNum)
    have hnext : partNum ≤ nextNum extPartSector pt partNum := by
      rw [nextNum]
      split_ifs
      · exact Nat.le_succ _
      · exact Nat.le_refl _
    rw [printTable]
    split_ifs with hprinted
    · have hcounted : nextNum extPartSector pt partNum = partNum + 1 := by
        apply if_pos
        rcases hprinted.2 with hzero | hext
        · exact Or.inl hzero
        · exact Or.inr ⟨hprinted.1, hext⟩
      rw [hcounted] at hle hlines hascending ⊢
      refine ⟨Nat.le_of_succ_le hle, ?_, List.pairwise_cons.mpr ⟨?_, hascending⟩⟩
      · intro line hline
        rcases List.mem_cons.mp hline with rfl | hline
        · exact ⟨Nat.le_refl _, hle⟩
        · exact ⟨Nat.le_of_succ_le (hlines line hline).1, (hlines line hline).2⟩
      · exact fun line hline ↦ (hlines line hline).1
    · refine ⟨hnext.trans hle, fun line hline ↦ ?_, hascending⟩
      exact ⟨hnext.trans (hlines line hline).1, (hlines line hline).2⟩

theorem partitions_printTable (pts : List DosPartition) (partNum : ℕ) :
    partitions (printTable extPartSector pts partNum).1 = [] ↔ ∀ pt ∈ pts, ¬ IsPartition pt := by
  induction pts generalizing partNum with
  | nil => simp [printTable, partitions]
  | cons pt pts ih =>
    have hrest := ih (nextNum extPartSector pt partNum)
    rw [partitions] at hrest
    rw [List.forall_mem_cons, ← hrest, printTable, partitions, IsPartition]
    split_ifs with hprinted
    · cases hext : isExtended pt.sysInd with
      | true => simp
      | false => simp [hprinted.1]
    · have hnot : ¬ (pt.sysInd ≠ 0 ∧ isExtended pt.sysInd = false) := by
        rintro ⟨hne, hext⟩
        exact hprinted ⟨hne, Or.inr (by simp [hext])⟩
      simp only [hnot, not_false_eq_true, true_and]

/-- The partition that a line is about, for the lookup. -/
def info (dev : BlockDev) (line : Line) : DiskPartition :=
  ⟨line.lbaStart, line.lbaSize, 512, partName dev line.partNum, ascii "U-Boot"⟩

theorem findPart_eq (whichPart : ℕ) (pts : List DosPartition) (partNum : ℕ) :
    findPart dev extPartSector whichPart pts partNum =
      match (partitions (printTable extPartSector pts partNum).1).find? (·.partNum = whichPart) with
      | some line => .inl (info dev line)
      | none => .inr (printTable extPartSector pts partNum).2 := by
  induction pts generalizing partNum with
  | nil => rfl
  | cons pt pts ih =>
    rw [findPart, printTable]
    cases hext : isExtended pt.sysInd with
    | true =>
      rw [if_neg (by simp), ih]
      split_ifs with hprinted
      · simp [partitions]
      · rfl
    | false =>
      by_cases hzero : pt.sysInd = 0
      · rw [if_neg (by simp [hzero]), if_neg (by simp [hzero]), ih]
      · by_cases hwhich : partNum = whichPart
        · rw [if_pos ⟨hzero, hwhich, rfl⟩, if_pos ⟨hzero, Or.inr (by simp)⟩]
          simp [partitions, hwhich, info]
        · rw [if_neg (by simp [hwhich]), if_pos ⟨hzero, Or.inr (by simp)⟩, ih]
          simp [partitions, hwhich]

end Table

section Lookup

variable {dev : BlockDev} {whichPart fuel partNum : ℕ} {t : UInt32 × UInt32} {lines : List Line}

theorem testBlockType_eq_none {buffer : Mem} :
    testBlockType buffer = none ↔ buffer 0x1fe ≠ 0x55 ∨ buffer 0x1ff ≠ 0xaa := by
  rw [testBlockType]
  split_ifs with hmagic <;> simp [hmagic]

theorem head?_extended (t : UInt32 × UInt32) (buffer : Mem) :
    (extended t buffer).head? =
      ((table buffer).find? fun pt ↦ isExtended pt.sysInd).map (follows t.1 t.2) := by
  rw [extended, List.head?_map, List.head?_filter]

/-- The lookup takes the first line with its number. -/
theorem get_eq_find (whichPart : ℕ) (h : chain dev fuel t partNum = some lines) :
    (getPartitionInfoExtended dev whichPart fuel t.1 t.2 partNum).map (·.info) =
      some ((lines.find? (·.partNum = whichPart)).map (info dev)) := by
  induction fuel generalizing t partNum lines with
  | zero => cases h
  | succ fuel ih =>
    rw [chain] at h
    rw [getPartitionInfoExtended]
    cases hread : dev.read t.1 with
    | none =>
      simp only [hread] at h
      cases h
      rfl
    | some buffer =>
      simp only [hread, testBlockType_eq_none] at h
      simp only
      split_ifs at h ⊢ with hmagic
      · cases h
        rfl
      · rw [head?_extended] at h
        rw [findPart_eq]
        generalize printTable t.1 (table buffer) partNum = own at h ⊢
        cases hext : (table buffer).find? fun pt ↦ isExtended pt.sysInd with
        | none =>
          simp only [hext, Option.map_none, Option.some.injEq] at h
          subst h
          cases (partitions own.1).find? (·.partNum = whichPart) <;> rfl
        | some pt =>
          simp only [hext, Option.map_some, Option.map_eq_some_iff] at h
          obtain ⟨rest, hrest, rfl⟩ := h
          rw [List.find?_append]
          cases (partitions own.1).find? (·.partNum = whichPart) with
          | some line => rfl
          | none =>
            have hgot := ih hrest
            simp only [Option.none_or, Option.map_map]
            exact hgot

theorem chain_numbers (h : chain dev fuel t partNum = some lines) :
    (∀ line ∈ lines, partNum ≤ line.partNum) ∧ lines.Pairwise fun a b ↦ a.partNum < b.partNum := by
  induction fuel generalizing t partNum lines with
  | zero => cases h
  | succ fuel ih =>
    rw [chain] at h
    cases hread : dev.read t.1 with
    | none =>
      simp only [hread] at h
      cases h
      exact ⟨List.forall_mem_nil _, List.Pairwise.nil⟩
    | some buffer =>
      simp only [hread] at h
      split_ifs at h with hmagic
      · cases h
        exact ⟨List.forall_mem_nil _, List.Pairwise.nil⟩
      · obtain ⟨hle, hlines, hascending⟩ :=
          printTable_numbers t.1 (table buffer) partNum
        generalize printTable t.1 (table buffer) partNum = own at h hle hlines hascending
        have hown : ∀ line ∈ partitions own.1, partNum ≤ line.partNum ∧ line.partNum < own.2 :=
          fun line hline ↦ hlines line (List.mem_of_mem_filter hline)
        have hsorted : (partitions own.1).Pairwise fun a b ↦ a.partNum < b.partNum :=
          hascending.filter _
        cases hext : (extended t buffer).head? with
        | none =>
          simp only [hext, Option.some.injEq] at h
          subst h
          exact ⟨fun line hline ↦ (hown line hline).1, hsorted⟩
        | some c =>
          simp only [hext, Option.map_eq_some_iff] at h
          obtain ⟨rest, hrest, rfl⟩ := h
          obtain ⟨hge, hrestSorted⟩ := ih hrest
          refine ⟨fun line hline ↦ ?_, List.pairwise_append.mpr ⟨hsorted, hrestSorted, ?_⟩⟩
          · rcases List.mem_append.mp hline with hline | hline
            · exact (hown line hline).1
            · exact hle.trans (hge line hline)
          · exact fun a ha b hb ↦ lt_of_lt_of_le (hown a ha).2 (hge b hb)

/-- More fuel does not change a lookup that ends. -/
theorem get_add {got : Got} (h : getPartitionInfoExtended dev whichPart fuel t.1 t.2 partNum = some got)
    (k : ℕ) : getPartitionInfoExtended dev whichPart (fuel + k) t.1 t.2 partNum = some got := by
  induction fuel generalizing t partNum got with
  | zero => cases h
  | succ fuel ih =>
    rw [getPartitionInfoExtended] at h
    rw [Nat.add_right_comm, getPartitionInfoExtended]
    cases hread : dev.read t.1 with
    | none => simpa only [hread] using h
    | some buffer =>
      simp only [hread] at h ⊢
      split_ifs at h ⊢ with hmagic
      · exact h
      · cases hfind : findPart dev t.1 whichPart (table buffer) partNum with
        | inl info => simpa only [hfind] using h
        | inr partNum =>
          cases hext : (table buffer).find? fun pt ↦ isExtended pt.sysInd with
          | none => simpa only [hfind, hext] using h
          | some pt =>
            simp only [hfind, hext, Option.map_eq_some_iff] at h ⊢
            obtain ⟨got, hgot, rfl⟩ := h
            exact ⟨got, ih hgot, rfl⟩

/-- A lookup does not find a number below the first one. -/
theorem get_ge {got : Got} {found : DiskPartition}
    (h : getPartitionInfoExtended dev whichPart fuel t.1 t.2 partNum = some got)
    (hfound : got.info = some found) : partNum ≤ whichPart := by
  induction fuel generalizing t partNum got with
  | zero => cases h
  | succ fuel ih =>
    rw [getPartitionInfoExtended] at h
    cases hread : dev.read t.1 with
    | none =>
      simp only [hread, Option.some.injEq] at h
      subst h
      cases hfound
    | some buffer =>
      simp only [hread] at h
      split_ifs at h with hmagic
      · cases h
        cases hfound
      · obtain ⟨hle, hlines, -⟩ := printTable_numbers t.1 (table buffer) partNum
        rw [findPart_eq] at h
        generalize printTable t.1 (table buffer) partNum = own at h hle hlines
        cases hfind : (partitions own.1).find? (·.partNum = whichPart) with
        | some line =>
          have hline := (hlines line (List.mem_of_mem_filter (List.mem_of_find?_eq_some hfind))).1
          have hnumber : line.partNum = whichPart := by simpa using List.find?_some hfind
          exact hnumber ▸ hline
        | none =>
          simp only [hfind] at h
          cases hext : (table buffer).find? fun pt ↦ isExtended pt.sysInd with
          | none =>
            simp only [hext, Option.some.injEq] at h
            subst h
            cases hfound
          | some pt =>
            simp only [hext, Option.map_eq_some_iff] at h
            obtain ⟨got, hgot, rfl⟩ := h
            exact hle.trans (ih hgot hfound)

end Lookup

section Print

variable {dev : BlockDev} {fuel partNum : ℕ} {t u : UInt32 × UInt32} {out : Printed}

theorem partitions_append (a b : List Line) : partitions (a ++ b) = partitions a ++ partitions b :=
  List.filter_append a b

theorem partitions_flatten_eq_nil {outs : List Printed} :
    partitions (outs.map (·.lines)).flatten = [] ↔ ∀ out ∈ outs, partitions out.lines = [] := by
  simp [partitions]

theorem forall_iff_of_forall₂ {α β : Type} {R : α → β → Prop} {P : α → Prop} {Q : β → Prop} {l : List α}
    {l' : List β} (h : List.Forall₂ R l l') (hPQ : ∀ a ∈ l, ∀ b, R a b → (P a ↔ Q b)) :
    (∀ a ∈ l, P a) ↔ ∀ b ∈ l', Q b := by
  induction h with
  | nil => simp
  | @cons a b l l' hab _ ih =>
    rw [List.forall_mem_cons, List.forall_mem_cons, hPQ a List.mem_cons_self b hab,
      ih fun a ha ↦ hPQ a (List.mem_cons_of_mem _ ha)]

theorem NoPbr.child (h : NoPbr dev t) {c : UInt32 × UInt32} (hc : c ∈ children dev t) : NoPbr dev c :=
  fun u hu ↦ h u (reaches_iff.mpr (Or.inr ⟨c, hc, hu⟩))

/-- A sector that is no table prints nothing for the lookup, without boot records. -/
theorem leaf_lines (hpbr : NoPbr dev t)
    (hleaf : ∀ buffer, dev.read t.1 = some buffer → testBlockType buffer ≠ some .mbr)
    (h : printPartitionExtended dev (fuel + 1) t.1 t.2 partNum = some out) : out.lines = [] := by
  obtain ⟨-, lines, hprint, hlines⟩ := print_leaf hleaf
  rw [hprint] at h
  cases h
  refine List.eq_nil_iff_forall_not_mem.mpr fun line hline ↦ ?_
  obtain ⟨buffer, hread, htype, -⟩ := (hlines line).mp hline
  exact hpbr t (reaches_iff.mpr (Or.inl rfl)) buffer hread htype

theorem partitions_eq_nil_iff (hpbr : NoPbr dev t)
    (h : printPartitionExtended dev fuel t.1 t.2 partNum = some out) :
    partitions out.lines = [] ↔ ∀ u, Reaches (children dev) t u → Empty dev u := by
  induction fuel generalizing t partNum out with
  | zero => cases h
  | succ fuel ih =>
    by_cases hmbr : ∃ buffer, dev.read t.1 = some buffer ∧ testBlockType buffer = some .mbr
    · obtain ⟨buffer, hread, htype⟩ := hmbr
      obtain ⟨outs, houts, rfl⟩ := (print_mbr hread htype).mp h
      have hempty : Empty dev t ↔ ∀ pt ∈ table buffer, ¬ IsPartition pt := by
        refine ⟨fun h ↦ h buffer hread htype, fun h buffer' hread' _ ↦ ?_⟩
        obtain rfl := Option.some.inj (hread.symm.trans hread')
        exact h
      have hsub := forall_iff_of_forall₂ (Q := fun out ↦ partitions out.lines = []) houts
        fun c hc out hout ↦ (ih (hpbr.child hc) hout).symm
      rw [partitions_append, List.append_eq_nil_iff, partitions_printTable, partitions_flatten_eq_nil,
        ← hempty, ← hsub]
      constructor
      · rintro ⟨ht, hchildren⟩ u hu
        rcases reaches_iff.mp hu with rfl | ⟨c, hc, hu⟩
        · exact ht
        · exact hchildren c hc u hu
      · intro hall
        refine ⟨hall t (reaches_iff.mpr (Or.inl rfl)), fun c hc u hu ↦ ?_⟩
        exact hall u (reaches_iff.mpr (Or.inr ⟨c, hc, hu⟩))
    · have hleaf : ∀ buffer, dev.read t.1 = some buffer → testBlockType buffer ≠ some .mbr :=
        fun buffer hread htype ↦ hmbr ⟨buffer, hread, htype⟩
      rw [leaf_lines hpbr hleaf h]
      refine iff_of_true rfl fun u hu ↦ ?_
      rcases reaches_iff.mp hu with rfl | ⟨c, hc, -⟩
      · exact fun buffer hread htype ↦ absurd htype (hleaf buffer hread)
      · rw [(print_leaf hleaf).1] at hc
        cases hc

theorem single_iff : Single dev t ↔
    (∀ c ∈ (children dev t).tail, ∀ u, Reaches (children dev) c u → Empty dev u) ∧
      ∀ c ∈ children dev t, Single dev c := by
  constructor
  · intro h
    refine ⟨h t (reaches_iff.mpr (Or.inl rfl)), fun c hc u hu ↦ ?_⟩
    exact h u (reaches_iff.mpr (Or.inr ⟨c, hc, hu⟩))
  · rintro ⟨htail, hchildren⟩ u hu
    rcases reaches_iff.mp hu with rfl | ⟨c, hc, hu⟩
    · exact htail
    · exact hchildren c hc u hu

theorem Reaches.trans_child {c v : UInt32 × UInt32} (hu : Reaches (children dev) t u)
    (hc : c ∈ children dev u) (hv : Reaches (children dev) c v) : Reaches (children dev) t v := by
  obtain ⟨p, hp⟩ := hu
  obtain ⟨q, hq⟩ := reaches_iff.mpr (Or.inr ⟨c, hc, hv⟩)
  exact ⟨p ++ q, (follow_append hp).trans hq⟩

/-- The lookup goes through a part of what is printed, and through all of it just if nothing is behind
the other extended entries. -/
theorem chain_of_print (hpbr : NoPbr dev t)
    (h : printPartitionExtended dev fuel t.1 t.2 partNum = some out) :
    ∃ lines, chain dev fuel t partNum = some lines ∧ lines.Sublist (partitions out.lines) ∧
      (partitions out.lines = lines ↔ Single dev t) := by
  induction fuel generalizing t partNum out with
  | zero => cases h
  | succ fuel ih =>
    by_cases hmbr : ∃ buffer, dev.read t.1 = some buffer ∧ testBlockType buffer = some .mbr
    · obtain ⟨buffer, hread, htype⟩ := hmbr
      obtain ⟨outs, houts, rfl⟩ := (print_mbr hread htype).mp h
      rw [chain, hread]
      simp only [htype, reduceCtorEq, if_false, partitions_append]
      rw [single_iff]
      have hchildren := children_mbr hread htype
      generalize printTable t.1 (table buffer) partNum = own at houts ⊢
      cases hext : extended t buffer with
      | nil =>
        rw [hchildren, hext] at houts ⊢
        cases houts
        exact ⟨partitions own.1, rfl, by simp [partitions], by simp [partitions]⟩
      | cons c cs =>
        rw [hext] at hchildren
        rw [hchildren] at houts ⊢
        obtain _ | ⟨hout, houts⟩ := houts
        rename_i first outs
        have hpbrs : ∀ c' ∈ c :: cs, NoPbr dev c' := fun c' hc' ↦ hpbr.child (hchildren ▸ hc')
        obtain ⟨lines, hlines, hsub, hiff⟩ := ih (hpbrs c List.mem_cons_self) hout
        have hrest := forall_iff_of_forall₂ (Q := fun out ↦ partitions out.lines = []) houts
          fun c' hc' out hout ↦
            (partitions_eq_nil_iff (hpbrs c' (List.mem_cons_of_mem c hc')) hout).symm
        rw [← partitions_flatten_eq_nil] at hrest
        have hflat : partitions ((first :: outs).map (·.lines)).flatten =
            partitions first.lines ++ partitions (outs.map (·.lines)).flatten := by
          rw [List.map_cons, List.flatten_cons, partitions_append]
        rw [hflat]
        refine ⟨partitions own.1 ++ lines, by rw [List.head?_cons]; simp only [hlines]; rfl, ?_, ?_⟩
        · exact (hsub.trans (List.sublist_append_left _ _)).append_left _
        · rw [List.append_cancel_left_eq, List.tail_cons, hrest, List.forall_mem_cons, ← hiff]
          constructor
          · intro heq
            have hlength := congrArg List.length heq
            rw [List.length_append] at hlength
            have hle := hsub.length_le
            have hnil : partitions (outs.map (·.lines)).flatten = [] :=
              List.length_eq_zero_iff.mp (by omega)
            rw [hnil, List.append_nil] at heq
            refine ⟨hnil, heq, fun c' hc' u hu c'' hc'' v hv ↦ ?_⟩
            exact hrest.mpr hnil c' hc' v (Reaches.trans_child hu (List.mem_of_mem_tail hc'') hv)
          · rintro ⟨hnil, heq, -⟩
            rw [hnil, List.append_nil, heq]
    · have hleaf : ∀ buffer, dev.read t.1 = some buffer → testBlockType buffer ≠ some .mbr :=
        fun buffer hread htype ↦ hmbr ⟨buffer, hread, htype⟩
      have hchain : chain dev (fuel + 1) t partNum = some [] := by
        rw [chain]
        cases hread : dev.read t.1 with
        | none => rfl
        | some buffer =>
          have hnone : testBlockType buffer = none := by
            cases htype : testBlockType buffer with
            | none => rfl
            | some type =>
              cases type with
              | pbr => exact absurd htype (hpbr t (reaches_iff.mpr (Or.inl rfl)) buffer hread)
              | mbr => exact absurd htype (hleaf buffer hread)
          simp [hnone]
      rw [leaf_lines hpbr hleaf h, single_iff, (print_leaf hleaf).1]
      exact ⟨[], hchain, by simp [partitions], by simp [partitions]⟩

end Print

section Agrees

variable {dev : BlockDev} {fuel : ℕ} {lines : List Line}

theorem find?_number (h : lines.Pairwise fun a b ↦ a.partNum < b.partNum) {n : ℕ} {line : Line} :
    lines.find? (·.partNum = n) = some line ↔ line ∈ lines ∧ line.partNum = n := by
  constructor
  · intro hfind
    exact ⟨List.mem_of_find?_eq_some hfind, by simpa using List.find?_some hfind⟩
  · rintro ⟨hmem, rfl⟩
    induction lines with
    | nil => cases hmem
    | cons a lines ih =>
      obtain ⟨ha, hlines⟩ := List.pairwise_cons.mp h
      rcases List.mem_cons.mp hmem with rfl | hmem
      · simp
      · rw [List.find?_cons_of_neg (by simpa using (ha line hmem).ne)]
        exact ih hlines hmem

theorem succeeds_iff (h : chain dev fuel (0, 0) 1 = some lines) {n : ℕ} {start size : UInt32} :
    Succeeds dev n start size ↔
      ∃ line ∈ lines, line.partNum = n ∧ line.lbaStart = start ∧ line.lbaSize = size := by
  obtain ⟨-, hascending⟩ := chain_numbers h
  obtain ⟨got, hgot, hinfo⟩ := Option.map_eq_some_iff.mp (get_eq_find n h)
  constructor
  · rintro ⟨fuel', got', found, hgot', hfound, rfl, rfl⟩
    have hsame : got' = got := by
      have hmore := get_add (t := (0, 0)) hgot' fuel
      rw [Nat.add_comm, get_add hgot fuel'] at hmore
      exact (Option.some.inj hmore).symm
    rw [← hsame, hfound] at hinfo
    obtain ⟨line, hline, rfl⟩ := Option.map_eq_some_iff.mp hinfo.symm
    obtain ⟨hmem, hnumber⟩ := (find?_number hascending).mp hline
    exact ⟨line, hmem, hnumber, rfl, rfl⟩
  · rintro ⟨line, hmem, hnumber, rfl, rfl⟩
    rw [(find?_number hascending).mpr ⟨hmem, hnumber⟩, Option.map_some] at hinfo
    exact ⟨fuel, got, _, hgot, hinfo, rfl, rfl⟩

theorem printTable_zero (pts : List DosPartition) (partNum : ℕ) :
    (printTable 0 pts partNum).2 = partNum + pts.length := by
  induction pts generalizing partNum with
  | nil => rfl
  | cons pt pts ih =>
    have hnext : nextNum 0 pt partNum = partNum + 1 := if_pos (Or.inl rfl)
    rw [printTable, hnext]
    split_ifs
    · rw [ih, List.length_cons, Nat.add_right_comm, Nat.add_assoc]
    · rw [ih, List.length_cons, Nat.add_right_comm, Nat.add_assoc]

/-- The line for a FAT boot record is printed, wherever it is. -/
theorem pbr_line {t u : UInt32 × UInt32} {partNum : ℕ} {out : Printed} {buffer : Mem}
    (h : printPartitionExtended dev fuel t.1 t.2 partNum = some out)
    (hu : Reaches (children dev) t u) (hread : dev.read u.1 = some buffer)
    (htype : testBlockType buffer = some .pbr) :
    ⟨1, 0, dev.lba, buffer 0x15, false⟩ ∈ partitions out.lines := by
  induction fuel generalizing t partNum out with
  | zero => cases h
  | succ fuel ih =>
    rcases reaches_iff.mp hu with rfl | ⟨c, hc, hu⟩
    · have hleaf : ∀ buffer', dev.read u.1 = some buffer' → testBlockType buffer' ≠ some .mbr := by
        intro buffer' hread'
        obtain rfl := Option.some.inj (hread.symm.trans hread')
        rw [htype]
        decide
      obtain ⟨-, lines, hprint, hlines⟩ := print_leaf hleaf
      rw [hprint] at h
      cases h
      exact List.mem_filter.mpr ⟨(hlines _).mpr ⟨buffer, hread, htype, rfl⟩, rfl⟩
    · by_cases hmbr : ∃ buffer, dev.read t.1 = some buffer ∧ testBlockType buffer = some .mbr
      · obtain ⟨buffer', hread', htype'⟩ := hmbr
        obtain ⟨outs, houts, rfl⟩ := (print_mbr hread' htype').mp h
        obtain ⟨i, hi, rfl⟩ := List.mem_iff_getElem.mp hc
        have hi' : i < outs.length := houts.length_eq ▸ hi
        have hline := ih (houts.get hi hi') hu
        rw [partitions_append]
        refine List.mem_append_right _ (List.mem_filter.mpr ⟨?_, rfl⟩)
        exact List.mem_flatten.mpr ⟨_, List.mem_map_of_mem (List.getElem_mem hi'),
          List.mem_of_mem_filter hline⟩
      · rw [(print_leaf fun buffer hread htype ↦ hmbr ⟨buffer, hread, htype⟩).1] at hc
        cases hc

/-- Number 1 is the first entry of the MBR, and not the line for a boot record. -/
theorem Agrees.noPbr {d : DosDisk} {out : Printed} (hprint : printPartDos d.dev fuel = some out)
    (h : Agrees d.dev out.lines) : NoPbr d.dev (0, 0) := by
  intro u hu buffer hread htype
  obtain _ | fuel := fuel
  · cases hprint
  rcases reaches_iff.mp hu with rfl | ⟨c, hc, hu⟩
  · obtain rfl := Option.some.inj (d.read.symm.trans hread)
    rw [d.mbr] at htype
    cases htype
  obtain ⟨outs, houts, rfl⟩ := (print_mbr (t := (0, 0)) d.read d.mbr).mp hprint
  have hpbr : ⟨1, 0, d.dev.lba, buffer 0x15, false⟩ ∈ partitions (outs.map (·.lines)).flatten := by
    obtain ⟨i, hi, rfl⟩ := List.mem_iff_getElem.mp hc
    have hi' : i < outs.length := houts.length_eq ▸ hi
    have hline := pbr_line (houts.get hi hi') hu hread htype
    refine List.mem_filter.mpr ⟨?_, rfl⟩
    exact List.mem_flatten.mpr ⟨_, List.mem_map_of_mem (List.getElem_mem hi'),
      List.mem_of_mem_filter hline⟩
  have hunique := h.unique
  rw [partitions_append, List.map_append, List.nodup_append] at hunique
  have hmem := List.mem_append_right (partitions (printTable 0 (table d.buffer) 1).1) hpbr
  rw [← partitions_append] at hmem
  obtain ⟨fuel', got, found, hgot, hinfo, -⟩ := (h.lookup 1 0 d.dev.lba).mp ⟨_, hmem, rfl, rfl, rfl⟩
  obtain _ | fuel' := fuel'
  · cases hgot
  have hmagic : ¬ (d.buffer 0x1fe ≠ 0x55 ∨ d.buffer 0x1ff ≠ 0xaa) := by
    rw [← testBlockType_eq_none, d.mbr]
    simp
  rw [getPartitionInfoDos, getPartitionInfoExtended, d.read] at hgot
  simp only [if_neg hmagic, findPart_eq] at hgot
  cases hfind : (partitions (printTable 0 (table d.buffer) 1).1).find? (·.partNum = 1) with
  | some line =>
    have hnumber : line.partNum = 1 := by simpa using List.find?_some hfind
    exact hunique.2.2 1 (List.mem_map.mpr ⟨line, List.mem_of_find?_eq_some hfind, hnumber⟩) 1
      (List.mem_map_of_mem hpbr) rfl
  | none =>
    simp only [hfind] at hgot
    cases hext : (table d.buffer).find? fun pt ↦ isExtended pt.sysInd with
    | none =>
      simp only [hext, Option.some.injEq] at hgot
      subst hgot
      cases hinfo
    | some pt =>
      simp only [hext, Option.map_eq_some_iff] at hgot
      obtain ⟨got, hgot, rfl⟩ := hgot
      have hge := get_ge hgot hinfo
      have hlength : (table d.buffer).length = 4 := rfl
      rw [printTable_zero] at hge
      omega

/-- The listing follows all extended entries of a table and stops at a FAT boot record; the lookup
follows the first one and looks into every sector with the signature. -/
theorem print_get_agree_iff (d : DosDisk) :
    (∃ fuel out, printPartDos d.dev fuel = some out ∧ Agrees d.dev out.lines) ↔ Plain d.dev := by
  constructor
  · rintro ⟨fuel, out, hprint, hagrees⟩
    have hpbr := hagrees.noPbr hprint
    obtain ⟨lines, hchain, hsub, hiff⟩ := chain_of_print hpbr hprint
    refine ⟨hpbr, hiff.mp (hsub.eq_of_length_le ?_).symm⟩
    have hsubset : (partitions out.lines).map (·.partNum) ⊆ lines.map (·.partNum) := by
      intro n hn
      obtain ⟨line, hline, rfl⟩ := List.mem_map.mp hn
      have hfound := (hagrees.lookup _ _ _).mp ⟨line, hline, rfl, rfl, rfl⟩
      obtain ⟨line', hline', hnumber, -⟩ := (succeeds_iff hchain).mp hfound
      exact List.mem_map.mpr ⟨line', hline', hnumber⟩
    simpa using (hagrees.unique.subperm hsubset).length_le
  · intro h
    obtain ⟨n, hn⟩ := d.finite
    obtain ⟨out, hprint⟩ : ∃ out, printPartDos d.dev (n + 1) = some out := by
      rw [← Option.isSome_iff_exists, ← Option.ne_none_iff_isSome]
      intro hnone
      have hwalk := reads_print d.dev (n + 1) (0, 0) 1
      rw [show printPartitionExtended d.dev (n + 1) 0 0 1 = none from hnone] at hwalk
      obtain ⟨p, a, hlength, hp⟩ := exists_path hwalk.symm
      have hle := hn p (by rw [hp]; rfl)
      omega
    obtain ⟨lines, hchain, -, hiff⟩ := chain_of_print h.noPbr hprint
    have heq := hiff.mpr h.single
    refine ⟨n + 1, out, hprint, fun m start size ↦ ?_, ?_⟩
    · rw [heq, succeeds_iff hchain]
    · rw [heq]
      exact List.pairwise_map.mpr ((chain_numbers hchain).2.imp fun hlt ↦ hlt.ne)

/-- A table with two entries; the type and the first sector of each. -/
def tableOf (type : UInt8) (start start' : UInt8) : Mem := fun k ↦
  if k = 0x1fe then 0x55 else if k = 0x1ff then 0xaa
  else if k = 0x1c2 ∨ k = 0x1d2 then type
  else if k = 0x1c6 then start else if k = 0x1d6 then start'
  else if k = 0x1ca ∨ k = 0x1da then 1 else 0

/-- Two extended partitions in the MBR, each with two partitions. -/
def twoExtended : BlockDev where
  ifType := 4
  dev := 0
  lba := 64
  read sector :=
    if sector = 0 then some (tableOf 5 16 32)
    else if sector = 16 ∨ sector = 32 then some (tableOf 0x83 1 2)
    else none

theorem children_twoExtended : children twoExtended (0, 0) = [(16, 16), (32, 32)] ∧
    children twoExtended (16, 16) = [] ∧ children twoExtended (32, 32) = [] := by
  decide +kernel

def twoExtendedDisk : DosDisk where
  dev := twoExtended
  buffer := tableOf 5 16 32
  read := rfl
  mbr := by decide +kernel
  finite := by
    refine ⟨1, fun p hp ↦ ?_⟩
    obtain ⟨hroot, hfirst, hsecond⟩ := children_twoExtended
    have hleaf : ∀ c ∈ children twoExtended (0, 0), children twoExtended c = [] := by
      rw [hroot]
      exact List.forall_mem_cons.mpr ⟨hfirst, List.forall_mem_singleton.mpr hsecond⟩
    obtain _ | ⟨i, _ | ⟨j, p⟩⟩ := p
    · exact Nat.zero_le 1
    · exact Nat.le_refl 1
    · obtain ⟨a, ha⟩ := Option.isSome_iff_exists.mp hp
      obtain ⟨c, hc, ha⟩ := follow_cons.mp ha
      obtain ⟨c', hc', -⟩ := follow_cons.mp ha
      rw [hleaf c (List.mem_of_getElem? hc)] at hc'
      cases hc'

/-- Number 5 is printed twice. -/
theorem print_get_differ :
    ¬ ∃ fuel out, printPartDos twoExtendedDisk.dev fuel = some out ∧
      Agrees twoExtendedDisk.dev out.lines := by
  rintro ⟨fuel, out, hprint, hagrees⟩
  obtain _ | _ | fuel := fuel
  · cases hprint
  · cases hprint
  · have hlines : printPartDos twoExtended (fuel + 2) = some ⟨[0, 16, 32],
        [⟨1, 16, 1, 5, true⟩, ⟨2, 32, 1, 5, true⟩, ⟨5, 17, 1, 0x83, false⟩, ⟨6, 18, 1, 0x83, false⟩,
          ⟨5, 33, 1, 0x83, false⟩, ⟨6, 34, 1, 0x83, false⟩]⟩ := rfl
    cases hlines.symm.trans hprint
    exact absurd hagrees.unique (by decide)

end Agrees

end UBoot.Disk.PartDosListing
