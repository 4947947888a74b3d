import Mathlib.Data.Finset.Max
import Mathlib.Data.List.Induction
import Mathlib.Data.List.Pairwise
import UBoot.Fs.Jffs2
import UBoot.Lib.CString

namespace UBoot.Fs.Jffs2Dirents

open Lib.CString Lib.Linked Jffs2

/-- `jffs2_raw_dirent`, as far as it is read; the name has `nsize` bytes. -/
structure RawDirent where
  pino : UInt32
  version : UInt32
  ino : UInt32
  name : CStr
  nsize_lt : name.length < 256

/-- `get_node_mem`: the entry at an offset. -/
abbrev Dirents := UInt32 → RawDirent

def strncmp : ℕ → CStr → CStr → Int8
  | 0, _, _ => 0
  | count + 1, cs, ct =>
    if first cs ≠ first ct then (first cs - first ct).toInt8
    else if first cs = 0 then 0
    else strncmp count cs.tail ct.tail

/-- Where the entries are. A store into a mapped flash may or may not change what is read; from a NAND
flash only the heads of the entries are copied, and the names are what lies behind the copies. -/
inductive Device where
  | nor (writable : Bool)
  | nand (behind : UInt32 → UInt32 → Int8)

/-- The device, and `CFG_JFFS2_SORT_FRAGMENTS`. -/
structure Config where
  dev : Device
  sortFragments : Bool

/-- `jOld->ino = 0` -/
def markDead (dev : Device) (flash : Dirents) (old : UInt32) : Dirents :=
  match dev with
  | .nor true => Function.update flash old { flash old with ino := 0 }
  | .nor false | .nand _ => flash

def compareDirents (dev : Device) (flash : Dirents) (new old : UInt32) : Bool × Dirents :=
  let jNew := flash new
  let jOld := flash old
  if jNew.pino ≠ jOld.pino then (jNew.pino > jOld.pino, flash)
  else if jNew.name.length ≠ jOld.name.length then (jNew.name.length > jOld.name.length, flash)
  else
    let cmp :=
      match dev with
      | .nor _ => strncmp jNew.name.length jNew.name jOld.name
      | .nand behind => behind new old
    if cmp ≠ 0 then (cmp > 0, flash)
    else if jNew.version > jOld.version then (true, markDead dev flash old)
    else (false, flash)

section Insert

variable (dev : Device) (L : BList) (new : UInt32)

/-- `b != NULL && list->listCompare(new, b)` -/
def compareAt (flash : Dirents) : Option ℕ → Bool × Dirents
  | none => (false, flash)
  | some b => compareDirents dev flash new (L.offset b)

/-- `prev` before the loop. -/
def searchFrom (flash : Dirents) : Dirents × Option ℕ :=
  let (newer, flash) := compareAt dev L new flash L.listTail
  if newer then (flash, L.listTail)
  else
    let (newer, flash) := compareAt dev L new flash L.listLast
    if newer then (flash, L.listLast) else (flash, none)

/-- The loop; `prev` and `b` when it ends. -/
def search : ℕ → Dirents → Option ℕ → Option ℕ → Dirents × Option ℕ × Option ℕ
  | 0, flash, prev, b => (flash, prev, b)
  | _ + 1, flash, prev, none => (flash, prev, none)
  | n + 1, flash, prev, some b =>
    let (newer, flash) := compareDirents dev flash new (L.offset b)
    if newer then search n flash (some b) (L.next b) else (flash, prev, some b)

end Insert

/-- `insert_node` for the list of the directory entries. -/
def insertNode (cfg : Config) (s : Dirents × BList) (offset : UInt32) : Dirents × BList :=
  if cfg.sortFragments then
    let (flash, prev) := searchFrom cfg.dev s.2 offset s.1
    let (flash, prev, b) :=
      search cfg.dev s.2 offset s.2.listCount flash prev (prev.elim s.2.listHead s.2.next)
    (flash, link s.2 offset prev b)
  else (s.1, link s.2 offset none none)

/-- The entries and the list when `insert_node` has received these offsets. -/
def build (cfg : Config) (flash : Dirents) (offsets : List UInt32) : Dirents × BList :=
  offsets.foldl (insertNode cfg) (flash, BList.empty)

/-- `inode` and `version` after an entry. -/
def findStep (name : CStr) (pino : UInt32) (r : UInt32 × UInt32) (jDir : RawDirent) :
    UInt32 × UInt32 :=
  if pino = jDir.pino ∧ name.length = jDir.name.length ∧ jDir.ino ≠ 0 ∧
      strncmp name.length jDir.name name = 0 then
    if jDir.version < r.2 then r else (jDir.ino, jDir.version)
  else r

/-- `jffs2_1pass_find_inode` -/
def findInode (s : Dirents × BList) (name : CStr) (pino : UInt32) : UInt32 :=
  (((fragments s.2).map s.1).foldl (findStep name pino) (0, 0)).1

/-- An entry for a name in a directory. -/
def Names (flash : Dirents) (name : CStr) (pino : UInt32) (off : UInt32) : Prop :=
  (flash off).pino = pino ∧ (flash off).name = name

/-- The entry with the highest version. -/
structure Newest (flash : Dirents) (offsets : List UInt32) (name : CStr) (pino off : UInt32) :
    Prop where
  mem : off ∈ offsets
  names : Names flash name pino off
  newest : ∀ off' ∈ offsets, Names flash name pino off' → (flash off').version ≤ (flash off).version

/-- Entries of which no two for one name in a directory have the same version. -/
structure Entries (flash : Dirents) where
  offsets : List UInt32
  distinct : offsets.Pairwise fun a b ↦ (flash a).pino = (flash b).pino →
    (flash a).name = (flash b).name → (flash a).version ≠ (flash b).version

/-- What is to be found: the inode of the newest entry, which is 0 for an unlink, or 0. -/
def Finds (flash : Dirents) (offsets : List UInt32) (name : CStr) (pino ino : UInt32) : Prop :=
  (∃ off, Newest flash offsets name pino off ∧ ino = (flash off).ino) ∨
    (∀ off ∈ offsets, ¬ Names flash name pino off) ∧ ino = 0

/-- The lookups are right for every order of the entries, and with sorting they do not depend on it. -/
structure Honours (cfg : Config) (flash : Dirents) (offsets : List UInt32) : Prop where
  finds : ∀ received, received.Perm offsets → ∀ name pino, NulFree name →
    Finds flash offsets name pino (findInode (build cfg flash received) name pino)
  order : cfg.sortFragments → ∀ received received', received.Perm offsets →
    received'.Perm offsets → ∀ name pino, NulFree name →
      findInode (build cfg flash received) name pino =
        findInode (build cfg flash received') name pino

/-- The newest entry for a name is an unlink only where no entry for the name has an inode. -/
def NoDeletions (flash : Dirents) (offsets : List UInt32) : Prop :=
  ∀ name pino off, NulFree name → Newest flash offsets name pino off → (flash off).ino = 0 →
    ∀ off' ∈ offsets, Names flash name pino off' → (flash off').ino = 0

/-- An entry with the name of an older one. -/
structure Newer (new old : RawDirent) : Prop where
  pino : new.pino = old.pino
  length : new.name.length = old.name.length
  name : strncmp new.name.length new.name old.name = 0
  version : old.version < new.version

/-- Some of the entries are marked, those of which a newer one was received. -/
def Marked (flash : Dirents) (received : List UInt32) (marked : Dirents) : Prop :=
  ∀ off, marked off = flash off ∨
    marked off = { flash off with ino := 0 } ∧ ∃ new ∈ received, Newer (flash new) (flash off)

/-- What the lookup takes for an entry of the name. -/
structure Live (name : CStr) (pino : UInt32) (jDir : RawDirent) : Prop where
  pino : pino = jDir.pino
  length : name.length = jDir.name.length
  ino : jDir.ino ≠ 0
  name : strncmp name.length jDir.name name = 0

section Compare

variable {s t : CStr} {n : ℕ}

theorem strncmp_self (n : ℕ) (s : CStr) : strncmp n s s = 0 := by
  induction n generalizing s with
  | zero => rfl
  | succ n ih =>
    rw [strncmp, if_neg (not_not_intro rfl)]
    split_ifs
    · rfl
    · exact ih s.tail

/-- Behind a NUL nothing is compared, but a name without one is compared whole. -/
theorem eq_of_strncmp (hs : s.length = n) (ht : t.length = n) (hfree : NulFree t)
    (h : strncmp n s t = 0) : s = t := by
  induction n generalizing s t with
  | zero => rw [List.length_eq_zero_iff.mp hs, List.length_eq_zero_iff.mp ht]
  | succ n ih =>
    obtain ⟨c, s, rfl⟩ := List.exists_cons_of_length_eq_add_one hs
    obtain ⟨d, t, rfl⟩ := List.exists_cons_of_length_eq_add_one ht
    rw [strncmp, first_cons, first_cons] at h
    have hcd : c = d := by
      by_contra hne
      rw [if_pos hne] at h
      have hbits : (c - d).toBitVec = 0 := congrArg Int8.toBitVec h
      have hzero : c - d = 0 := UInt8.toBitVec_inj.mp hbits
      exact hne (by grind)
    subst hcd
    have hc : c ≠ 0 := hfree c List.mem_cons_self
    rw [if_neg (not_not_intro rfl), if_neg hc] at h
    have hrest := ih (Nat.succ.inj hs) (Nat.succ.inj ht)
      (fun x hx ↦ hfree x (List.mem_cons_of_mem c hx)) h
    rw [hrest]

end Compare

section Search

variable {dev : Device} {L : BList} {new : UInt32} {s t l : List ℕ} {P : Dirents → Prop}

/-- What a comparison may do to an entry, and when. -/
theorem compareDirents_flash (dev : Device) (flash : Dirents) (new old : UInt32) :
    (compareDirents dev flash new old).2 = flash ∨
      (compareDirents dev flash new old).2 =
          Function.update flash old { flash old with ino := 0 } ∧
        Newer (flash new) (flash old) := by
  simp only [compareDirents]
  split_ifs with hpino hlength hcmp hversion
  · exact Or.inl rfl
  · exact Or.inl rfl
  · exact Or.inl rfl
  · cases dev with
    | nand behind => exact Or.inl rfl
    | nor writable =>
      cases writable with
      | false => exact Or.inl rfl
      | true =>
        exact Or.inr ⟨rfl, not_not.mp hpino, not_not.mp hlength, not_not.mp hcmp, hversion⟩
  · exact Or.inl rfl

theorem search_spec {flash : Dirents} (h : Seg L.next L.listHead (s ++ t) none) {n : ℕ}
    (hn : t.length ≤ n)
    (hkept : ∀ flash, P flash → ∀ b ∈ s ++ t, P (compareDirents dev flash new (L.offset b)).2)
    (hflash : P flash) :
    ∃ flash' s' t', search dev L new n flash s.getLast? t.head? =
      (flash', s'.getLast?, t'.head?) ∧ s' ++ t' = s ++ t ∧ P flash' := by
  induction t generalizing s n flash with
  | nil => cases n <;> exact ⟨flash, s, [], rfl, rfl, hflash⟩
  | cons b t ih =>
    cases n with
    | zero => simp at hn
    | succ n =>
      have hb := hkept flash hflash b (List.mem_append_right s List.mem_cons_self)
      rw [List.head?_cons, search]
      dsimp only
      split
      · have hsplit : s ++ b :: t = (s ++ [b]) ++ t := by rw [List.append_assoc]; rfl
        have hnext := h.next_eq
        rw [hsplit] at h hkept ⊢
        rw [hnext, ← List.getLast?_concat]
        exact ih h (Nat.le_of_succ_le_succ hn) hkept hb
      · exact ⟨_, s, b :: t, rfl, rfl, hb⟩

theorem searchFrom_spec {flash : Dirents} (h : Chain L l)
    (hkept : ∀ flash, P flash → ∀ b ∈ l, P (compareDirents dev flash new (L.offset b)).2)
    (hflash : P flash) :
    ∃ flash' s t, searchFrom dev L new flash = (flash', s.getLast?) ∧
      s.getLast?.elim L.listHead L.next = t.head? ∧ l = s ++ t ∧ P flash' := by
  have hat : ∀ flash b, P flash → (∀ x, b = some x → x ∈ l) → P (compareAt dev L new flash b).2 := by
    intro flash b hflash hb
    cases b with
    | none => exact hflash
    | some b => exact hkept flash hflash b (hb b rfl)
  have hbehind : ∀ flash b, P flash → (compareAt dev L new flash b).1 = true →
      (∀ x, b = some x → x ∈ l) →
        ∃ flash' s t, ((compareAt dev L new flash b).2, b) = (flash', s.getLast?) ∧
          s.getLast?.elim L.listHead L.next = t.head? ∧ l = s ++ t ∧ P flash' := by
    intro flash b hflash hnewer hb
    cases b with
    | none => cases hnewer
    | some b =>
      obtain ⟨s, t, rfl⟩ := List.append_of_mem (hb b rfl)
      refine ⟨_, s ++ [b], t, by rw [List.getLast?_concat], ?_, ?_, hat _ _ hflash hb⟩
      · rw [List.getLast?_concat, Option.elim_some, h.chain.next_eq]
      · rw [List.append_assoc]
        rfl
  have htail : ∀ x, L.listTail = some x → x ∈ l := fun x hx ↦ List.mem_of_getLast? (h.tail ▸ hx)
  rw [searchFrom]
  dsimp only
  split
  · rename_i hnewer
    exact hbehind flash L.listTail hflash hnewer htail
  · have hflash := hat flash L.listTail hflash htail
    split
    · rename_i hnewer
      exact hbehind _ L.listLast hflash hnewer h.last
    · exact ⟨_, [], l, rfl, h.chain.start, rfl, hat _ _ hflash h.last⟩

/-- `insert_node` puts the cell somewhere. -/
theorem insertNode_spec {cfg : Config} {flash : Dirents} (h : Chain L l) (off : UInt32)
    (hkept : ∀ flash, P flash → ∀ b ∈ l, P (compareDirents cfg.dev flash off (L.offset b)).2)
    (hflash : P flash) :
    P (insertNode cfg (flash, L) off).1 ∧
      (∃ l', Chain (insertNode cfg (flash, L) off).2 l') ∧
      (fragments (insertNode cfg (flash, L) off).2).Perm (off :: fragments L) := by
  rw [insertNode]
  dsimp only
  split
  · obtain ⟨flash', s, t, hfrom, hnext, rfl, hflash'⟩ := searchFrom_spec h hkept hflash
    have hcount : t.length ≤ L.listCount := by
      rw [← h.length, List.length_append]
      exact Nat.le_add_left _ _
    obtain ⟨flash'', s', t', hsearch, hsplit, hflash''⟩ :=
      search_spec h.chain hcount hkept hflash'
    rw [hfrom]
    dsimp only
    rw [hnext, hsearch]
    rw [← hsplit] at h
    refine ⟨hflash'', ⟨_, h.link off fun _ ↦ rfl⟩, ?_⟩
    rw [h.fragments_link off fun _ ↦ rfl, h.fragments_eq, List.map_append]
    exact List.perm_middle
  · rw [← List.append_nil l] at h
    have hprev : ([] : List ℕ) ≠ [] → (none : Option ℕ) = l.getLast? := fun hne ↦ absurd rfl hne
    refine ⟨hflash, ⟨_, h.link off hprev⟩, ?_⟩
    have hfragments := h.fragments_link off hprev
    rw [List.head?_nil] at hfragments
    rw [hfragments, h.fragments_eq, List.append_nil]
    exact List.perm_append_comm

/-- What the comparisons of the received entries keep holds behind them, and nothing is lost. -/
theorem build_spec {cfg : Config} {flash : Dirents} {received : List UInt32}
    (hkept : ∀ received' new, received' ++ [new] <+: received → ∀ flash, P flash →
      ∀ old ∈ received', P (compareDirents cfg.dev flash new old).2) (hflash : P flash) :
    P (build cfg flash received).1 ∧ (∃ l, Chain (build cfg flash received).2 l) ∧
      (fragments (build cfg flash received).2).Perm received := by
  induction received using List.reverseRecOn with
  | nil => exact ⟨hflash, ⟨[], Chain.empty⟩, List.Perm.refl _⟩
  | append_singleton received new ih =>
    obtain ⟨hbuilt, ⟨l, hchain⟩, hperm⟩ := ih fun received' new' hfront ↦
      hkept received' new' (hfront.trans (List.prefix_append _ _))
    have hstep : build cfg flash (received ++ [new]) =
        insertNode cfg (build cfg flash received) new := by
      rw [build, List.foldl_concat]
      rfl
    have hcells : ∀ b ∈ l, (build cfg flash received).2.offset b ∈ received := by
      intro b hb
      rw [hchain.fragments_eq] at hperm
      exact hperm.mem_iff.mp (List.mem_map_of_mem hb)
    obtain ⟨hP, hl, hadd⟩ := insertNode_spec hchain new
      (fun flash hflash b hb ↦ hkept received new (List.prefix_refl _) flash hflash _ (hcells b hb))
      hbuilt
    rw [hstep]
    exact ⟨hP, hl, hadd.trans ((hperm.cons new).trans (List.perm_append_singleton new received).symm)⟩

end Search

section Marked

variable {flash marked : Dirents} {received : List UInt32} {off : UInt32}

theorem Marked.version (h : Marked flash received marked) :
    (marked off).version = (flash off).version := by
  rcases h off with heq | ⟨heq, -⟩ <;> rw [heq]

theorem Marked.names (h : Marked flash received marked) {name : CStr} {pino : UInt32} :
    Names marked name pino off ↔ Names flash name pino off := by
  rw [Names, Names]
  rcases h off with heq | ⟨heq, -⟩ <;> rw [heq]

theorem Marked.newer (h : Marked flash received marked) {new : UInt32}
    (hnewer : Newer (marked new) (marked off)) : Newer (flash new) (flash off) := by
  have hsame : ∀ x, (marked x).pino = (flash x).pino ∧ (marked x).name = (flash x).name ∧
      (marked x).version = (flash x).version := by
    intro x
    rcases h x with heq | ⟨heq, -⟩ <;> rw [heq] <;> exact ⟨rfl, rfl, rfl⟩
  obtain ⟨hpino, hname, hversion⟩ := hsame new
  obtain ⟨hpino', hname', hversion'⟩ := hsame off
  obtain ⟨h1, h2, h3, h4⟩ := hnewer
  rw [hpino, hpino'] at h1
  rw [hname, hname'] at h2 h3
  rw [hversion, hversion'] at h4
  exact ⟨h1, h2, h3, h4⟩

theorem Marked.compareDirents (dev : Device) (h : Marked flash received marked) {new old : UInt32}
    (hnew : new ∈ received) : Marked flash received (compareDirents dev marked new old).2 := by
  rcases compareDirents_flash dev marked new old with heq | ⟨heq, hnewer⟩
  · rwa [heq]
  · rw [heq]
    intro off
    rcases eq_or_ne off old with rfl | hne
    · rw [Function.update_self]
      refine Or.inr ⟨?_, new, hnew, h.newer hnewer⟩
      rcases h off with heq | ⟨heq, -⟩ <;> rw [heq]
    · rw [Function.update_of_ne hne]
      exact h off

theorem build_marked (cfg : Config) (flash : Dirents) (received : List UInt32) :
    Marked flash received (build cfg flash received).1 := by
  have hkept : ∀ received' new, received' ++ [new] <+: received → ∀ marked,
      Marked flash received marked → ∀ old ∈ received',
        Marked flash received (Jffs2Dirents.compareDirents cfg.dev marked new old).2 := by
    intro received' new hfront marked hmarked old hold
    exact hmarked.compareDirents cfg.dev
      (hfront.subset (List.mem_append_right _ (List.mem_singleton_self new)))
  exact (build_spec hkept fun off ↦ Or.inl rfl).1

/-- Entries received from the newest to the oldest are not marked. -/
theorem build_descending {cfg : Config}
    (h : received.Pairwise fun a b ↦ (flash b).version ≤ (flash a).version) :
    (build cfg flash received).1 = flash := by
  refine (build_spec (P := (· = flash)) ?_ rfl).1
  intro received' new hfront marked hmarked old hold
  rw [hmarked]
  have hpairwise := List.pairwise_append.mp (h.sublist hfront.sublist)
  have hversion := hpairwise.2.2 old hold new (List.mem_singleton_self new)
  rcases compareDirents_flash cfg.dev flash new old with heq | ⟨-, hnewer⟩
  · exact heq
  · exact absurd hnewer.version (UInt32.not_lt.mpr hversion)

theorem fragments_build (cfg : Config) (flash : Dirents) (received : List UInt32) :
    (fragments (build cfg flash received).2).Perm received :=
  (build_spec (P := fun _ ↦ True) (fun _ _ _ _ _ _ _ ↦ trivial) trivial).2.2

end Marked

section Find

variable {name : CStr} {pino : UInt32}

theorem live_iff (hfree : NulFree name) {jDir : RawDirent} :
    Live name pino jDir ↔ jDir.pino = pino ∧ jDir.name = name ∧ jDir.ino ≠ 0 := by
  constructor
  · intro h
    exact ⟨h.pino.symm, eq_of_strncmp h.length.symm rfl hfree h.name, h.ino⟩
  · rintro ⟨rfl, rfl, hino⟩
    exact ⟨rfl, rfl, hino, strncmp_self _ _⟩

/-- The live entry with the highest version, or nothing. -/
theorem foldl_findStep (name : CStr) (pino : UInt32) (l : List RawDirent) :
    (∀ jDir ∈ l, ¬ Live name pino jDir) ∧ l.foldl (findStep name pino) (0, 0) = (0, 0) ∨
      ∃ jDir ∈ l, Live name pino jDir ∧
        l.foldl (findStep name pino) (0, 0) = (jDir.ino, jDir.version) ∧
        ∀ jDir' ∈ l, Live name pino jDir' → jDir'.version ≤ jDir.version := by
  induction l using List.reverseRecOn with
  | nil => exact Or.inl ⟨List.forall_mem_nil _, rfl⟩
  | append_singleton l new ih =>
    rw [List.foldl_concat]
    generalize l.foldl (findStep name pino) (0, 0) = r at ih ⊢
    by_cases hlive : Live name pino new
    · have hstep : findStep name pino r new = if new.version < r.2 then r else
          (new.ino, new.version) :=
        if_pos ⟨hlive.pino, hlive.length, hlive.ino, hlive.name⟩
      rw [hstep]
      refine Or.inr ?_
      rcases ih with ⟨hnone, rfl⟩ | ⟨jDir, hmem, hjDir, rfl, hmax⟩
      · refine ⟨new, List.mem_concat_self, hlive, if_neg UInt32.not_lt_zero, ?_⟩
        intro jDir hmem hjDir
        rcases List.mem_append.mp hmem with hmem | hmem
        · exact absurd hjDir (hnone jDir hmem)
        · rw [List.mem_singleton.mp hmem]
          exact UInt32.le_refl _
      · by_cases hversion : new.version < jDir.version
        · refine ⟨jDir, List.mem_append_left _ hmem, hjDir, if_pos hversion, ?_⟩
          intro jDir' hmem' hjDir'
          rcases List.mem_append.mp hmem' with hmem' | hmem'
          · exact hmax jDir' hmem' hjDir'
          · rw [List.mem_singleton.mp hmem']
            exact UInt32.le_of_lt hversion
        · refine ⟨new, List.mem_concat_self, hlive, if_neg hversion, ?_⟩
          intro jDir' hmem' hjDir'
          rcases List.mem_append.mp hmem' with hmem' | hmem'
          · exact UInt32.le_trans (hmax jDir' hmem' hjDir') (UInt32.not_lt.mp hversion)
          · rw [List.mem_singleton.mp hmem']
            exact UInt32.le_refl _
    · have hstep : findStep name pino r new = r :=
        if_neg fun h ↦ hlive ⟨h.1, h.2.1, h.2.2.1, h.2.2.2⟩
      rw [hstep]
      rcases ih with ⟨hnone, rfl⟩ | ⟨jDir, hmem, hjDir, rfl, hmax⟩
      · refine Or.inl ⟨?_, rfl⟩
        intro jDir hmem
        rcases List.mem_append.mp hmem with hmem | hmem
        · exact hnone jDir hmem
        · rwa [List.mem_singleton.mp hmem]
      · refine Or.inr ⟨jDir, List.mem_append_left _ hmem, hjDir, rfl, ?_⟩
        intro jDir' hmem' hjDir'
        rcases List.mem_append.mp hmem' with hmem' | hmem'
        · exact hmax jDir' hmem' hjDir'
        · exact absurd (List.mem_singleton.mp hmem' ▸ hjDir') hlive

/-- The lookup among the received entries, some of them marked. -/
theorem findInode_build (cfg : Config) (flash : Dirents) (received : List UInt32) (pino : UInt32)
    (hfree : NulFree name) :
    (∀ off ∈ received, Names flash name pino off → ((build cfg flash received).1 off).ino = 0) ∧
        findInode (build cfg flash received) name pino = 0 ∨
      ∃ off ∈ received, Names flash name pino off ∧ ((build cfg flash received).1 off).ino ≠ 0 ∧
        findInode (build cfg flash received) name pino = ((build cfg flash received).1 off).ino ∧
        ∀ off' ∈ received, Names flash name pino off' →
          ((build cfg flash received).1 off').ino ≠ 0 →
            (flash off').version ≤ (flash off).version := by
  have hmarked := build_marked cfg flash received
  have hperm := fragments_build cfg flash received
  generalize build cfg flash received = s at hmarked hperm ⊢
  have hlive : ∀ off, Live name pino (s.1 off) ↔ Names flash name pino off ∧ (s.1 off).ino ≠ 0 := by
    intro off
    rw [live_iff hfree, ← hmarked.names, Names, and_assoc]
  have hmem : ∀ off ∈ received, s.1 off ∈ (fragments s.2).map s.1 := fun off hoff ↦
    List.mem_map_of_mem (hperm.mem_iff.mpr hoff)
  rw [findInode]
  rcases foldl_findStep name pino ((fragments s.2).map s.1) with
    ⟨hnone, heq⟩ | ⟨jDir, hjDir, hbest, heq, hmax⟩
  · refine Or.inl ⟨?_, by rw [heq]⟩
    intro off hoff hnames
    by_contra hino
    exact hnone _ (hmem off hoff) ((hlive off).mpr ⟨hnames, hino⟩)
  · obtain ⟨off, hoff, rfl⟩ := List.mem_map.mp hjDir
    obtain ⟨hnames, hino⟩ := (hlive off).mp hbest
    refine Or.inr ⟨off, hperm.mem_iff.mp hoff, hnames, hino, by rw [heq], ?_⟩
    intro off' hoff' hnames' hino'
    have hle := hmax _ (hmem off' hoff') ((hlive off').mpr ⟨hnames', hino'⟩)
    rwa [hmarked.version, hmarked.version] at hle

end Find

section Honours

variable {flash : Dirents} {name : CStr} {pino : UInt32}

theorem exists_newest (offsets : List UInt32) (h : ∃ off ∈ offsets, Names flash name pino off) :
    ∃ off, Newest flash offsets name pino off := by
  classical
  obtain ⟨off, hoff, hnames⟩ := h
  obtain ⟨newest, hmem, hmax⟩ :=
    (offsets.toFinset.filter (Names flash name pino)).exists_max_image
      (fun x ↦ (flash x).version.toNat)
      ⟨off, by simp [hoff, hnames]⟩
  rw [Finset.mem_filter, List.mem_toFinset] at hmem
  refine ⟨newest, hmem.1, hmem.2, ?_⟩
  intro off' hoff' hnames'
  exact UInt32.le_iff_toNat_le.mpr (hmax off' (by simp [hoff', hnames']))

theorem Entries.eq_of_version (s : Entries flash) {a b : UInt32} (ha : a ∈ s.offsets)
    (hb : b ∈ s.offsets) (hna : Names flash name pino a) (hnb : Names flash name pino b)
    (h : (flash a).version = (flash b).version) : a = b := by
  by_contra hne
  have : Std.Symm fun a b ↦ (flash a).pino = (flash b).pino →
      (flash a).name = (flash b).name → (flash a).version ≠ (flash b).version :=
    ⟨fun a b h hpino hname ↦ (h hpino.symm hname.symm).symm⟩
  exact s.distinct.forall ha hb hne (hna.1.trans hnb.1.symm) (hna.2.trans hnb.2.symm) h

theorem Newest.unique (s : Entries flash) {a b : UInt32} (ha : Newest flash s.offsets name pino a)
    (hb : Newest flash s.offsets name pino b) : a = b :=
  s.eq_of_version ha.mem hb.mem ha.names hb.names
    (UInt32.le_antisymm (hb.newest a ha.mem ha.names) (ha.newest b hb.mem hb.names))

theorem Finds.unique (s : Entries flash) {ino ino' : UInt32}
    (h : Finds flash s.offsets name pino ino) (h' : Finds flash s.offsets name pino ino') :
    ino = ino' := by
  rcases h with ⟨off, hoff, rfl⟩ | ⟨hnone, rfl⟩ <;> rcases h' with ⟨off', hoff', rfl⟩ | ⟨hnone', rfl⟩
  · rw [Newest.unique s hoff hoff']
  · exact absurd hoff.names (hnone' off hoff.mem)
  · exact absurd hoff'.names (hnone off' hoff'.mem)
  · rfl

/-- The newest entry for a name is not marked. -/
theorem Newest.kept {offsets received : List UInt32} {marked : Dirents} {off : UInt32}
    (h : Newest flash offsets name pino off) (hfree : NulFree name)
    (hmarked : Marked flash received marked) (hperm : received.Perm offsets) :
    marked off = flash off := by
  rcases hmarked off with heq | ⟨-, new, hnew, hnewer⟩
  · exact heq
  · obtain ⟨hpino, hname⟩ := h.names
    have hsame : (flash new).name = (flash off).name :=
      eq_of_strncmp rfl hnewer.length.symm (hname ▸ hfree) hnewer.name
    have hle := h.newest new (hperm.mem_iff.mp hnew) ⟨hnewer.pino.trans hpino, hsame.trans hname⟩
    exact absurd hnewer.version (UInt32.not_lt.mpr hle)

theorem NoDeletions.finds {cfg : Config} {s : Entries flash} (h : NoDeletions flash s.offsets)
    {received : List UInt32} (hperm : received.Perm s.offsets) (hfree : NulFree name) :
    Finds flash s.offsets name pino (findInode (build cfg flash received) name pino) := by
  have hmarked := build_marked cfg flash received
  have hfind := findInode_build cfg flash received pino hfree
  by_cases hsome : ∃ off ∈ s.offsets, Names flash name pino off
  · obtain ⟨newest, hnewest⟩ := exists_newest s.offsets hsome
    have hkept := hnewest.kept hfree hmarked hperm
    have hreceived := hperm.mem_iff.mpr hnewest.mem
    refine Or.inl ⟨newest, hnewest, ?_⟩
    rcases hfind with ⟨hzero, heq⟩ | ⟨off, hoff, hnames, hino, heq, hmax⟩
    · rw [heq, ← hkept, hzero newest hreceived hnewest.names]
    · have hmem := hperm.mem_iff.mp hoff
      have hnonzero : (flash newest).ino ≠ 0 := by
        intro hzero
        apply hino
        rcases hmarked off with hoff' | ⟨hoff', -⟩
        · rw [hoff', h name pino newest hfree hnewest hzero off hmem hnames]
        · rw [hoff']
      have hle := hmax newest hreceived hnewest.names (by rwa [hkept])
      have hsame : off = newest := s.eq_of_version hmem hnewest.mem hnames hnewest.names
        (UInt32.le_antisymm (hnewest.newest off hmem hnames) hle)
      rw [heq, hsame, hkept]
  · have hnone : ∀ off ∈ s.offsets, ¬ Names flash name pino off := fun off hoff hnames ↦
      hsome ⟨off, hoff, hnames⟩
    refine Or.inr ⟨hnone, ?_⟩
    rcases hfind with ⟨-, heq⟩ | ⟨off, hoff, hnames, -⟩
    · exact heq
    · exact absurd hnames (hnone off (hperm.mem_iff.mp hoff))

/-- Behind entries in descending order of their versions nothing says that a name was unlinked. -/
theorem Honours.noDeletions {cfg : Config} {s : Entries flash} (h : Honours cfg flash s.offsets) :
    NoDeletions flash s.offsets := by
  intro name pino newest hfree hnewest hzero off hoff hnames
  let le : UInt32 → UInt32 → Bool := fun a b ↦ (flash b).version ≤ (flash a).version
  let received := s.offsets.mergeSort le
  have hperm : received.Perm s.offsets := List.mergeSort_perm s.offsets le
  have hsorted : received.Pairwise fun a b ↦ (flash b).version ≤ (flash a).version := by
    have htrans : ∀ a b c, le a b → le b c → le a c := by
      intro a b c hab hbc
      exact decide_eq_true (UInt32.le_trans (of_decide_eq_true hbc) (of_decide_eq_true hab))
    have htotal : ∀ a b, (le a b || le b a) = true := by
      intro a b
      rcases UInt32.le_total (flash b).version (flash a).version with hle | hle <;> simp [le, hle]
    exact (List.pairwise_mergeSort htrans htotal s.offsets).imp fun hab ↦ of_decide_eq_true hab
  have hfinds := h.finds received hperm name pino hfree
  have hfound : findInode (build cfg flash received) name pino = 0 := by
    rcases hfinds with ⟨off', hoff', heq⟩ | ⟨-, heq⟩
    · rw [heq, Newest.unique s hoff' hnewest, hzero]
    · exact heq
  rcases findInode_build cfg flash received pino hfree with
    ⟨hnone, -⟩ | ⟨off', -, -, hino, heq, -⟩
  · rw [build_descending hsorted] at hnone
    exact hnone off (hperm.mem_iff.mpr hoff) hnames
  · exact absurd (heq.symm.trans hfound) hino

/-- An unlink is not seen by the lookup, only the marks that a later entry leaves on older ones. -/
theorem find_inode_honours_iff (cfg : Config) (flash : Dirents) (s : Entries flash) :
    Honours cfg flash s.offsets ↔ NoDeletions flash s.offsets := by
  refine ⟨Honours.noDeletions, fun h ↦ ⟨?_, ?_⟩⟩
  · intro received hperm name pino hfree
    exact h.finds hperm hfree
  · intro _ received received' hperm hperm' name pino hfree
    exact Finds.unique s (h.finds hperm hfree) (h.finds hperm' hfree)

/-- A file `a` that was unlinked, the unlink before its creation on the flash. -/
def unlinkedFlash (off : UInt32) : RawDirent :=
  if off = 0 then ⟨1, 2, 0, ascii "a", by decide⟩ else ⟨1, 1, 5, ascii "a", by decide⟩

theorem find_inode_finds_unlinked :
    findInode (build ⟨.nor true, true⟩ unlinkedFlash [0, 44]) (ascii "a") 1 = 5 ∧
      ¬ Honours ⟨.nor true, true⟩ unlinkedFlash [0, 44] := by
  have hfound : findInode (build ⟨.nor true, true⟩ unlinkedFlash [0, 44]) (ascii "a") 1 = 5 := by
    decide +kernel
  refine ⟨hfound, fun h ↦ ?_⟩
  have hfinds := h.finds [0, 44] (List.Perm.refl _) (ascii "a") 1 (by decide)
  rw [hfound] at hfinds
  rcases hfinds with ⟨off, hoff, hino⟩ | ⟨-, hino⟩
  · have hle := hoff.newest 0 (by decide) ⟨rfl, rfl⟩
    rcases eq_or_ne off 0 with rfl | hne
    · exact absurd hino (by decide)
    · rw [unlinkedFlash, unlinkedFlash, if_neg hne] at hle
      exact absurd hle (by decide)
  · exact absurd hino (by decide)

end Honours

end UBoot.Fs.Jffs2Dirents
