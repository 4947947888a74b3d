import Mathlib.Data.Finite.Sum
import UBoot.Lib.Cycle
import UBoot.LibGeneric.Crc32

namespace UBoot.Fs.Jffs2Scan

open Relation Lib.Cycle LibGeneric.Crc32

/-- The bytes of a NOR flash from `flash->start[0]` on. -/
abbrev Nor := UInt32 → UInt8

/-- `part_info`, as far as it is read; `part_validate` has checked the end. -/
structure PartInfo where
  offset : UInt32
  size : UInt32
  fits : offset.toNat + size.toNat ≤ 2 ^ 32

def sizeofUnknownNode : ℕ := 12
def sizeofRawDirent : ℕ := 40
def sizeofRawInode : ℕ := 68

section Node

variable (flash : Nor) (node : UInt32)

def bytes (n : ℕ) : List UInt8 := (List.range n).map fun i ↦ flash (node + UInt32.ofNat i)

/-- A big-endian word. -/
def word (n : ℕ) : UInt32 := (bytes flash node n).foldl (fun w b ↦ w <<< 8 ||| b.toUInt32) 0

def magic : UInt32 := word flash node 2
def nodetype : UInt32 := word flash (node + 2) 2
def totlen : UInt32 := word flash (node + 4) 4

def hdrCrc : Bool := word flash (node + 8) 4 = crc32NoComp 0 (bytes flash node (sizeofUnknownNode - 4))

/-- `nsize` of a `jffs2_raw_dirent`. -/
def nsize : ℕ := (flash (node + 28)).toNat

def direntCrc : Bool :=
  word flash (node + 32) 4 = crc32NoComp 0 (bytes flash node (sizeofRawDirent - 8))

def direntNameCrc : Bool :=
  word flash (node + 36) 4 = crc32NoComp 0 (bytes flash (node + 40) (nsize flash node))

/-- `csize` of a `jffs2_raw_inode`. -/
def csize : ℕ := (word flash (node + 48) 4).toNat

def inodeCrc : Bool :=
  word flash (node + 64) 4 = crc32NoComp 0 (bytes flash node (sizeofRawInode - 8))

def dataCrc : Bool :=
  word flash (node + 60) 4 = crc32NoComp 0 (bytes flash (node + 68) (csize flash node))

/-- The branches of the scan; `other` are the nodes about which there is at most a message. -/
inductive Found where
  | frag
  | dir
  | other
  | empty
  | nothing
  deriving DecidableEq

def found : Found :=
  if magic flash node = 0x1985 ∧ hdrCrc flash node then
    if nodetype flash node = 0xe002 ∧ inodeCrc flash node ∧ dataCrc flash node then .frag
    else if nodetype flash node = 0xe001 ∧ direntCrc flash node ∧ direntNameCrc flash node then .dir
    else .other
  else if magic flash node = 0xffff ∧ nodetype flash node = 0xffff then .empty
  else .nothing

end Node

/-- The list heads; a block of cells is for `NODE_CHUNK` of them. -/
structure Lists where
  dir : List UInt32
  frag : List UInt32

def nodeChunk : ℕ := 1024

/-- The blocks that `add_node` has allocated. -/
def Lists.blocks (l : Lists) : ℕ :=
  (l.dir.length + (nodeChunk - 1)) / nodeChunk + (l.frag.length + (nodeChunk - 1)) / nodeChunk

/-- Whether `add_node` has room for one more, in memory for that many blocks. -/
def Lists.room (heap : ℕ) (l : Lists) (count : ℕ) : Bool := count % nodeChunk ≠ 0 ∨ l.blocks < heap

/-- Where the two loops are: at the offset of a node, or at an address of `jffs2_scan_empty`. -/
inductive Place where
  | node (offset : UInt32)
  | empty (offset : UInt32)
  deriving DecidableEq

/-- A run that goes on, or the value of `jffs2_1pass_build_lists`. -/
inductive Run where
  | running (p : Place) (l : Lists)
  | ended (ret : UInt32) (l : Lists)

def Run.lists : Run → Lists
  | .running _ l => l
  | .ended _ l => l

section Scan

variable (part : PartInfo) (flash : Nor)

def max : UInt32 := part.size - UInt32.ofNat sizeofRawInode

def emptyMax : UInt32 := part.offset + part.size - UInt32.ofNat sizeofRawInode

/-- The place after this one; `none` is the end of the scan. -/
def next : Place → Option Place
  | .node offset =>
    let node := part.offset + offset
    if offset < max part then
      match found flash node with
      | .frag | .dir | .other => some (.node (offset + ((totlen flash node + 3) &&& ~~~3)))
      | .empty => some (.empty node)
      | .nothing => some (.node (offset + 4))
    else none
  | .empty offset =>
    if offset < emptyMax part ∧ word flash offset 4 = 0xffffffff then
      let offset := offset + 4
      if offset &&& ((1 : UInt32) <<< 18 - 1) = 0 then some (.node (offset - part.offset))
      else some (.empty offset)
    else some (.node (offset - part.offset))

/-- `insert_node`, when there is something to insert. -/
def insertNode (heap : ℕ) (l : Lists) : Place → Option Lists
  | .node offset =>
    let node := part.offset + offset
    match found flash node with
    | .frag => if l.room heap l.frag.length then some { l with frag := l.frag ++ [node] } else none
    | .dir => if l.room heap l.dir.length then some { l with dir := l.dir ++ [node] } else none
    | .other | .empty | .nothing => some l
  | .empty _ => some l

/-- One turn of a loop. -/
def step (heap : ℕ) (p : Place) (l : Lists) : Run :=
  match next part flash p with
  | none => .ended 1 l
  | some q =>
    match insertNode part flash heap l p with
    | none => .ended 0 l
    | some l => .running q l

def run (heap : ℕ) : ℕ → Place → Lists → Run
  | 0, p, l => .running p l
  | n + 1, p, l =>
    match step part flash heap p l with
    | .running p l => run heap n p l
    | .ended ret l => .ended ret l

/-- `jffs2_1pass_build_lists` after some turns of its loops. -/
def buildLists (heap n : ℕ) : Run := run part flash heap n (.node 0) ⟨[], []⟩

/-- So many bytes from an address on are in the partition. -/
def Inside (addr : UInt32) (n : ℕ) : Prop :=
  part.offset.toNat ≤ addr.toNat ∧ addr.toNat + n ≤ part.offset.toNat + part.size.toNat

/-- The scan ends, and what it inserts is in the partition with the bytes under its CRCs. -/
structure Total (heap : ℕ) : Prop where
  ends : ∃ n ret l, buildLists part flash heap n = .ended ret l
  frag : ∀ n, ∀ node ∈ (buildLists part flash heap n).lists.frag,
    Inside part node (sizeofRawInode + csize flash node)
  dir : ∀ n, ∀ node ∈ (buildLists part flash heap n).lists.dir,
    Inside part node (sizeofRawDirent + nsize flash node)

def Next (p q : Place) : Prop := next part flash p = some q

/-- Something is inserted. -/
def Inserts : Place → Prop
  | .node offset =>
    found flash (part.offset + offset) = .frag ∨ found flash (part.offset + offset) = .dir
  | .empty _ => False

def Quiet (p q : Place) : Prop := Next part flash p q ∧ ¬ Inserts part flash p

/-- The scan does not come back to a place without an insertion, and lengths of nodes end in the
partition. -/
structure Sane : Prop where
  acyclic : Acyclic (Next part flash) (Quiet part flash) (.node 0)
  frag : ∀ offset, ReflTransGen (Next part flash) (.node 0) (.node offset) → offset < max part →
    found flash (part.offset + offset) = .frag →
      offset.toNat + (sizeofRawInode + csize flash (part.offset + offset)) ≤ part.size.toNat
  dir : ∀ offset, ReflTransGen (Next part flash) (.node 0) (.node offset) → offset < max part →
    found flash (part.offset + offset) = .dir →
      offset.toNat + (sizeofRawDirent + nsize flash (part.offset + offset)) ≤ part.size.toNat

end Scan

section Lists

variable {part : PartInfo} {flash : Nor} {heap : ℕ} {p : Place} {l l' : Lists}

/-- The number of inserted nodes. -/
def Lists.count (l : Lists) : ℕ := l.dir.length + l.frag.length

theorem blocks_push (a b : ℕ) (hroom : a % nodeChunk ≠ 0 ∨
      (a + (nodeChunk - 1)) / nodeChunk + (b + (nodeChunk - 1)) / nodeChunk < heap)
    (h : (a + (nodeChunk - 1)) / nodeChunk + (b + (nodeChunk - 1)) / nodeChunk ≤ heap) :
    (a + 1 + (nodeChunk - 1)) / nodeChunk + (b + (nodeChunk - 1)) / nodeChunk ≤ heap := by
  rw [nodeChunk] at *
  omega

theorem Lists.count_le (l : Lists) : l.count ≤ nodeChunk * l.blocks := by
  rw [Lists.count, Lists.blocks, nodeChunk]
  omega

theorem Lists.blocks_le (l : Lists) : l.blocks ≤ l.count := by
  rw [Lists.count, Lists.blocks, nodeChunk]
  omega

/-- What an insertion does, and the memory stays enough for the cells. -/
theorem insertNode_spec (h : insertNode part flash heap l p = some l') (hl : l.blocks ≤ heap) :
    l'.blocks ≤ heap ∧
      (¬ Inserts part flash p ∧ l' = l ∨ Inserts part flash p ∧ l'.count = l.count + 1) := by
  cases p with
  | empty offset =>
    cases h
    exact ⟨hl, Or.inl ⟨not_false, rfl⟩⟩
  | node offset =>
    rw [insertNode] at h
    rw [Inserts]
    cases hfound : found flash (part.offset + offset) with
    | frag =>
      simp only [hfound] at h
      split_ifs at h with hroom
      cases h
      simp only [Lists.room, ne_eq, Bool.decide_or, Bool.or_eq_true, decide_eq_true_eq] at hroom
      rw [Lists.blocks, Nat.add_comm] at hroom hl
      have hpush := blocks_push _ _ hroom hl
      refine ⟨?_, Or.inr ⟨Or.inl rfl, ?_⟩⟩
      · rw [Lists.blocks, Nat.add_comm, List.length_append]
        exact hpush
      · rw [Lists.count, List.length_append]
        rfl
    | dir =>
      simp only [hfound] at h
      split_ifs at h with hroom
      cases h
      simp only [Lists.room, ne_eq, Bool.decide_or, Bool.or_eq_true, decide_eq_true_eq] at hroom
      have hpush := blocks_push _ _ hroom hl
      refine ⟨?_, Or.inr ⟨Or.inr rfl, ?_⟩⟩
      · rw [Lists.blocks, List.length_append]
        exact hpush
      · rw [Lists.count, List.length_append, Lists.count]
        exact Nat.add_right_comm _ _ _
    | other | empty | nothing =>
      simp only [hfound] at h
      cases h
      exact ⟨hl, Or.inl ⟨by simp, rfl⟩⟩

/-- With memory for more cells than there are an insertion does not fail. -/
theorem insertNode_isSome (part : PartInfo) (flash : Nor) (p : Place) (h : l.count < heap) :
    (insertNode part flash heap l p).isSome := by
  have hblocks := lt_of_le_of_lt l.blocks_le h
  have hroom : ∀ count, l.room heap count = true := by
    intro count
    simp [Lists.room, hblocks]
  cases p with
  | empty offset => rfl
  | node offset =>
    rw [insertNode]
    cases found flash (part.offset + offset) <;> simp [hroom]

end Lists

section Run

variable {part : PartInfo} {flash : Nor} {heap n : ℕ} {p q : Place} {l l' : Lists}

theorem run_add (k n : ℕ) (p : Place) (l : Lists) :
    run part flash heap (k + n) p l =
      match run part flash heap k p l with
      | .running p l => run part flash heap n p l
      | .ended ret l => .ended ret l := by
  induction k generalizing p l with
  | zero =>
    rw [Nat.zero_add]
    rfl
  | succ k ih =>
    rw [Nat.add_right_comm, run, run]
    cases step part flash heap p l with
    | running p l => exact ih p l
    | ended ret l => rfl

theorem run_succ (h : run part flash heap n (.node 0) ⟨[], []⟩ = .running p l) :
    buildLists part flash heap (n + 1) = step part flash heap p l := by
  rw [buildLists, run_add, h]
  simp only [run]
  cases step part flash heap p l <;> rfl

/-- A turn of a loop that does not end the run. -/
theorem step_running (hnext : Next part flash p q)
    (hinsert : insertNode part flash heap l p = some l') :
    step part flash heap p l = .running q l' := by
  rw [Next] at hnext
  rw [step, hnext]
  simp only
  rw [hinsert]

theorem eq_of_step_running (h : step part flash heap p l = .running q l') :
    Next part flash p q ∧ insertNode part flash heap l p = some l' := by
  rw [step] at h
  cases hnext : next part flash p with
  | none => simp [hnext] at h
  | some q' =>
    cases hinsert : insertNode part flash heap l p with
    | none => simp [hnext, hinsert] at h
    | some l'' =>
      simp only [hnext, hinsert, Run.running.injEq] at h
      exact ⟨hnext.trans (congrArg some h.1), congrArg some h.2⟩

/-- Every place of the scan is come to when there is memory enough. -/
theorem exists_run (h : ReflTransGen (Next part flash) (.node 0) p) :
    ∃ k, ∀ heap, k ≤ heap → ∃ l, buildLists part flash heap k = .running p l ∧ l.count ≤ k ∧
      l.blocks ≤ heap := by
  induction h with
  | refl => exact ⟨0, fun heap _ ↦ ⟨⟨[], []⟩, rfl, Nat.le_refl 0, Nat.zero_le heap⟩⟩
  | @tail p q _ hnext ih =>
    obtain ⟨k, hk⟩ := ih
    refine ⟨k + 1, fun heap hheap ↦ ?_⟩
    obtain ⟨l, hrun, hcount, hblocks⟩ := hk heap (Nat.le_of_succ_le hheap)
    have hsome := insertNode_isSome part flash p (lt_of_le_of_lt hcount hheap)
    obtain ⟨l', hl'⟩ := Option.isSome_iff_exists.mp hsome
    obtain ⟨hblocks', hspec⟩ := insertNode_spec hl' hblocks
    refine ⟨l', ?_, ?_, hblocks'⟩
    · rw [run_succ hrun]
      exact step_running hnext hl'
    · rcases hspec with ⟨-, rfl⟩ | ⟨-, heq⟩
      · exact Nat.le_succ_of_le hcount
      · rw [heq]
        exact Nat.succ_le_succ hcount

/-- A place that leads back to itself without an insertion is not left. -/
theorem run_of_cycle (h : TransGen (Quiet part flash) p p) (n : ℕ) (l : Lists) :
    ∃ q, run part flash heap n p l = .running q l := by
  induction n generalizing p with
  | zero => exact ⟨p, rfl⟩
  | succ n ih =>
    obtain ⟨q, ⟨hnext, hquiet⟩, hcycle⟩ := transGen_next h
    have hinsert : insertNode part flash heap l p = some l := by
      cases p with
      | empty offset => rfl
      | node offset =>
        rw [Inserts, not_or] at hquiet
        rw [insertNode]
        cases hfound : found flash (part.offset + offset) with
        | frag => exact absurd hfound hquiet.1
        | dir => exact absurd hfound hquiet.2
        | other | empty | nothing => rfl
    rw [run, step_running hnext hinsert]
    exact ih hcycle

instance finite_place : Finite Place := by
  have : Finite UInt32 := finite_uint32
  exact Finite.of_injective (fun p : Place ↦ match p with
    | .node offset => (Sum.inl offset : UInt32 ⊕ UInt32)
    | .empty offset => Sum.inr offset) (by
      intro p q h
      cases p <;> cases q <;> cases h <;> rfl)

/-- Between two insertions the scan comes to an end or to the next one, and the memory ends. -/
theorem exists_end (hacyclic : Acyclic (Next part flash) (Quiet part flash) (.node 0))
    (hp : ReflTransGen (Next part flash) (.node 0) p) (hl : l.blocks ≤ heap) :
    ∃ n ret l', run part flash heap n p l = .ended ret l' := by
  induction hroom : nodeChunk * heap - l.count using Nat.strong_induction_on generalizing p l with
  | _ room ih =>
    induction hacyclic.acc (fun x y h ↦ h.1) hp generalizing l with
    | intro p _ ihp =>
      cases hstep : step part flash heap p l with
      | ended ret l' => exact ⟨1, ret, l', by rw [run, hstep]⟩
      | running q l' =>
        have hgo : ∀ n ret l'', run part flash heap n q l' = .ended ret l'' →
            run part flash heap (n + 1) p l = .ended ret l'' := by
          intro n ret l'' hrun
          rw [run, hstep]
          exact hrun
        obtain ⟨hnext, hinsert⟩ := eq_of_step_running hstep
        obtain ⟨hl', hspec⟩ := insertNode_spec hinsert hl
        have hq := hp.tail hnext
        rcases hspec with ⟨hquiet, rfl⟩ | ⟨-, hcount⟩
        · obtain ⟨n, ret, l'', hrun⟩ := ihp q ⟨hnext, hquiet⟩ hq hl hroom
          exact ⟨n + 1, ret, l'', hgo n ret l'' hrun⟩
        · have hle : l'.count ≤ nodeChunk * heap :=
            l'.count_le.trans (Nat.mul_le_mul_left nodeChunk hl')
          obtain ⟨n, ret, l'', hrun⟩ := ih (nodeChunk * heap - l'.count) (by omega) hq hl' rfl
          exact ⟨n + 1, ret, l'', hgo n ret l'' hrun⟩

end Run

section Total

variable {part : PartInfo} {flash : Nor} {heap n : ℕ} {p : Place} {l : Lists}

theorem inside_iff {offset : UInt32} (hn : 0 < n) :
    Inside part (part.offset + offset) n ↔ offset.toNat + n ≤ part.size.toNat := by
  have hfits := part.fits
  have hoffset := offset.toNat_lt
  rw [Inside, UInt32.toNat_add]
  omega

/-- What is in the lists was found at a place of the scan. -/
structure Collected (part : PartInfo) (flash : Nor) (l : Lists) : Prop where
  frag : ∀ node ∈ l.frag, ∃ offset, ReflTransGen (Next part flash) (.node 0) (.node offset) ∧
    offset < max part ∧ node = part.offset + offset ∧ found flash node = .frag
  dir : ∀ node ∈ l.dir, ∃ offset, ReflTransGen (Next part flash) (.node 0) (.node offset) ∧
    offset < max part ∧ node = part.offset + offset ∧ found flash node = .dir

theorem lt_max_of_next {offset : UInt32} {q : Place} (h : Next part flash (.node offset) q) :
    offset < max part := by
  by_contra hend
  rw [Next, next] at h
  simp only [if_neg hend] at h
  cases h

theorem Collected.insertNode {l' : Lists} {q : Place} (h : Collected part flash l)
    (hp : ReflTransGen (Next part flash) (.node 0) p) (hnext : Next part flash p q)
    (hinsert : insertNode part flash heap l p = some l') : Collected part flash l' := by
  cases p with
  | empty offset =>
    cases hinsert
    exact h
  | node offset =>
    have hmax := lt_max_of_next hnext
    rw [Jffs2Scan.insertNode] at hinsert
    cases hfound : found flash (part.offset + offset) with
    | frag =>
      simp only [hfound] at hinsert
      split_ifs at hinsert
      cases hinsert
      refine ⟨fun node hnode ↦ ?_, h.dir⟩
      rcases List.mem_append.mp hnode with hnode | hnode
      · exact h.frag node hnode
      · rw [List.mem_singleton.mp hnode]
        exact ⟨offset, hp, hmax, rfl, hfound⟩
    | dir =>
      simp only [hfound] at hinsert
      split_ifs at hinsert
      cases hinsert
      refine ⟨h.frag, fun node hnode ↦ ?_⟩
      rcases List.mem_append.mp hnode with hnode | hnode
      · exact h.dir node hnode
      · rw [List.mem_singleton.mp hnode]
        exact ⟨offset, hp, hmax, rfl, hfound⟩
    | other | empty | nothing =>
      simp only [hfound] at hinsert
      cases hinsert
      exact h

theorem Collected.run (h : Collected part flash l)
    (hp : ReflTransGen (Next part flash) (.node 0) p) (n : ℕ) :
    Collected part flash (run part flash heap n p l).lists := by
  induction n generalizing p l with
  | zero => exact h
  | succ n ih =>
    rw [Jffs2Scan.run]
    cases hstep : step part flash heap p l with
    | running q l' =>
      obtain ⟨hnext, hinsert⟩ := eq_of_step_running hstep
      exact ih (h.insertNode hp hnext hinsert) (hp.tail hnext)
    | ended ret l' =>
      have hsame : l' = l := by
        rw [step] at hstep
        cases hnext : next part flash p with
        | none =>
          simp only [hnext, Run.ended.injEq] at hstep
          exact hstep.2.symm
        | some q =>
          cases hinsert : Jffs2Scan.insertNode part flash heap l p with
          | none =>
            simp only [hnext, hinsert, Run.ended.injEq] at hstep
            exact hstep.2.symm
          | some l'' => simp [hnext, hinsert] at hstep
      rw [hsame]
      exact h

theorem buildLists_collected (part : PartInfo) (flash : Nor) (heap n : ℕ) :
    Collected part flash (buildLists part flash heap n).lists :=
  Collected.run ⟨List.forall_mem_nil _, List.forall_mem_nil _⟩ ReflTransGen.refl n

/-- The turn at a place that is not the end inserts what was found there. -/
theorem exists_inserted {offset : UInt32}
    (h : ReflTransGen (Next part flash) (.node 0) (.node offset)) (hmax : offset < max part) :
    ∃ heap n,
      (found flash (part.offset + offset) = .frag →
        part.offset + offset ∈ (buildLists part flash heap n).lists.frag) ∧
      (found flash (part.offset + offset) = .dir →
        part.offset + offset ∈ (buildLists part flash heap n).lists.dir) := by
  obtain ⟨k, hk⟩ := exists_run h
  obtain ⟨l, hrun, hcount, -⟩ := hk (k + 1) (Nat.le_succ k)
  have hsome := insertNode_isSome part flash (.node offset) (Nat.lt_succ_of_le hcount)
  obtain ⟨l', hl'⟩ := Option.isSome_iff_exists.mp hsome
  obtain ⟨q, hq⟩ : ∃ q, next part flash (.node offset) = some q := by
    rw [← Option.isSome_iff_exists, next]
    simp only [if_pos hmax]
    cases found flash (part.offset + offset) <;> rfl
  have hinserted : buildLists part flash (k + 1) (k + 1) = .running q l' := by
    rw [run_succ hrun]
    exact step_running hq hl'
  rw [insertNode] at hl'
  refine ⟨k + 1, k + 1, fun hfound ↦ ?_, fun hfound ↦ ?_⟩
  · simp only [hfound] at hl'
    split_ifs at hl'
    cases hl'
    rw [hinserted]
    exact List.mem_append_right _ (List.mem_singleton_self _)
  · simp only [hfound] at hl'
    split_ifs at hl'
    cases hl'
    rw [hinserted]
    exact List.mem_append_right _ (List.mem_singleton_self _)

/-- Only the CRCs, which everybody can write, are between the scan and the lengths on the flash. -/
theorem build_lists_total_iff (part : PartInfo) (flash : Nor) :
    (∀ heap, Total part flash heap) ↔ Sane part flash := by
  have hinode : ∀ node, 0 < sizeofRawInode + csize flash node := fun node ↦
    Nat.add_pos_left (by decide) _
  have hdirent : ∀ node, 0 < sizeofRawDirent + nsize flash node := fun node ↦
    Nat.add_pos_left (by decide) _
  constructor
  · intro h
    refine ⟨fun p hp hcycle ↦ ?_, fun offset hoffset hmax hfound ↦ ?_,
      fun offset hoffset hmax hfound ↦ ?_⟩
    · obtain ⟨k, hk⟩ := exists_run hp
      obtain ⟨l, hrun, -⟩ := hk k (Nat.le_refl k)
      obtain ⟨n, ret, l', hend⟩ := (h k).ends
      obtain ⟨q, hq⟩ := run_of_cycle hcycle n l
      have hgoes : buildLists part flash k (k + n) = .running q l := by
        rw [buildLists] at hrun ⊢
        rw [run_add, hrun]
        exact hq
      have hends : buildLists part flash k (k + n) = .ended ret l' := by
        rw [buildLists] at hend ⊢
        rw [Nat.add_comm, run_add, hend]
      rw [hgoes] at hends
      cases hends
    · obtain ⟨heap, n, hfrag, -⟩ := exists_inserted hoffset hmax
      exact (inside_iff (hinode _)).mp ((h heap).frag n _ (hfrag hfound))
    · obtain ⟨heap, n, -, hdir⟩ := exists_inserted hoffset hmax
      exact (inside_iff (hdirent _)).mp ((h heap).dir n _ (hdir hfound))
  · intro h heap
    refine ⟨exists_end h.acyclic ReflTransGen.refl (Nat.zero_le heap), fun n node hnode ↦ ?_,
      fun n node hnode ↦ ?_⟩
    · obtain ⟨offset, hoffset, hmax, rfl, hfound⟩ :=
        (buildLists_collected part flash heap n).frag node hnode
      exact (inside_iff (hinode _)).mpr (h.frag offset hoffset hmax hfound)
    · obtain ⟨offset, hoffset, hmax, rfl, hfound⟩ :=
        (buildLists_collected part flash heap n).dir node hnode
      exact (inside_iff (hdirent _)).mpr (h.dir offset hoffset hmax hfound)

/-- A cleanmarker with `totlen` 0 on an erased flash. -/
def markerFlash (addr : UInt32) : UInt8 :=
  ([0x19, 0x85, 0x20, 0x03, 0, 0, 0, 0, 0xf9, 0xd6, 0x90, 0xb3] : List UInt8).getD addr.toNat 0xff

def markerPart : PartInfo := ⟨0, 0x10000, by decide⟩

theorem build_lists_stays :
    (∀ n, buildLists markerPart markerFlash 1 n = .running (.node 0) ⟨[], []⟩) ∧
      ¬ ∀ heap, Total markerPart markerFlash heap := by
  have hfound : found markerFlash (markerPart.offset + 0) = .other := by decide +kernel
  have hnext : Next markerPart markerFlash (.node 0) (.node 0) := by
    have hlength : (0 : UInt32) + ((totlen markerFlash (markerPart.offset + 0) + 3) &&& ~~~3) = 0 := by
      decide +kernel
    rw [Next, next]
    simp only [hfound, hlength]
    rfl
  have hinsert : insertNode markerPart markerFlash 1 ⟨[], []⟩ (.node 0) = some ⟨[], []⟩ := by
    rw [insertNode]
    simp only [hfound]
  have hrun : ∀ n, buildLists markerPart markerFlash 1 n = .running (.node 0) ⟨[], []⟩ := by
    intro n
    induction n with
    | zero => rfl
    | succ n ih => rw [run_succ ih, step_running hnext hinsert]
  refine ⟨hrun, fun h ↦ ?_⟩
  obtain ⟨n, ret, l, hend⟩ := (h 1).ends
  rw [hrun n] at hend
  cases hend

end Total

end UBoot.Fs.Jffs2Scan
