import Mathlib.Data.Finite.Prod
import UBoot.Lib.Cycle
import UBoot.Fs.FatLookupNames

namespace UBoot.Fs.FatLookupEnds

open Relation
open Lib.CString (CStr ascii)
open Lib.Memory Lib.Loop Lib.Cycle Lib.StateValue FatLookup FatLookupValue FatLookupNames
open Fat hiding diskRead getFatent getCluster getContents

section

variable (d : Disk) (mydata : FsData) (s₀ : Buffers)

def dirStep (filename : CStr) (dols : ℤ) (curclust : UInt32) : Except Stop (UInt32 ⊕ Option Dent) :=
  value s₀ (dirRound d mydata filename dols curclust)

def rootStep (filename : CStr) (dols : ℤ) (p : UInt32 × Mem) :
    Except Stop (UInt32 × Mem ⊕ Dent ⊕ ℤ) :=
  value s₀ (rootRound d mydata filename dols p)

def contentsStep (r : Contents) : Except Stop (Contents ⊕ ℤ × Mem) := value s₀ (contentsRound d mydata r)

/-- The search of a directory does not come back to a cluster, and the long names fit. -/
structure DirSane (filename : CStr) (dols : ℤ) (start : UInt32) : Prop where
  acyclic : Acyclic (Goes (dirStep d mydata s₀ filename dols)) (Goes (dirStep d mydata s₀ filename dols))
    start
  fits : ∀ c, ReflTransGen (Goes (dirStep d mydata s₀ filename dols)) start c →
    DirFits d mydata s₀ filename dols c

def LookSane (dols : ℤ) (look : Look) : Prop :=
  DirSane d mydata s₀ (head look.subname) (look.ls dols) (START mydata look.dent)

/-- A round of `while (isdir)` leads to the next one, or to the end of the path. -/
def LookEnds (dols : ℤ) (look : Look) (z : Look ⊕ Dent ⊕ ℤ) : Prop :=
  ∃ r, Ends (dirStep d mydata s₀ (head look.subname) (look.ls dols)) (START mydata look.dent) r ∧
    look.after dols r = z

/-- The path leads from one directory to the next. -/
def Enters (dols : ℤ) (look look' : Look) : Prop := LookEnds d mydata s₀ dols look (.inl look')

/-- How `get_contents` goes on from one pair `(curclust, endclust)` to another when its clusters have
no sectors. -/
def Turn (p q : UInt32 × UInt32) : Prop :=
  ¬ endsReading (link d mydata s₀ p.2).toNat ∧
    if link d mydata s₀ p.2 - 1 ≠ p.2 then
      (diskRead d (startsect mydata p.1.toNat) 0).isSome ∧
        q = (link d mydata s₀ p.2, link d mydata s₀ p.2)
    else q = (p.1, link d mydata s₀ p.2)

/-- A file that is not empty, on a volume with clusters of no sectors, has no cycle. -/
def ContentsSane (maxsize : UInt32) (dent : Dent) : Prop :=
  mydata.clustSize = 0 → limited dent.entry maxsize ≠ 0 →
    Acyclic (Turn d mydata s₀) (Turn d mydata s₀) (START mydata dent, START mydata dent)

variable {d mydata s₀} {filename : CStr} {dols : ℤ}

theorem value_getDentfromdir (h₀ : Kept d mydata s₀ s₀) (start : UInt32) (n : ℕ) :
    value s₀ (getDentfromdir d mydata filename dols start n) =
      loop (.error .rounds) (dirStep d mydata s₀ filename dols) n start :=
  value_loop h₀ (steady_dirRound filename dols) n start

section Dir

variable (h₀ : Kept d mydata s₀ s₀) (hsize : mydata.bytesperclust ≤ maxClustsize)

include h₀ hsize

theorem dirSane_of_ok {start : UInt32} {n : ℕ} {r : Option Dent}
    (h : value s₀ (getDentfromdir d mydata filename dols start n) = .ok r) :
    DirSane d mydata s₀ filename dols start := by
  rw [value_getDentfromdir h₀] at h
  exact ⟨acyclic_of_acc (acc_of_ok h), fun c hc ↦ (dirRound_ok_iff h₀ hsize).mp (body_ok h hc)⟩

theorem dirEnds_of_sane {start : UInt32} (h : DirSane d mydata s₀ filename dols start) :
    ∃ r, Ends (dirStep d mydata s₀ filename dols) start r := by
  have hfinite := finite_uint32
  exact ends_of_acc (acyclic_iff_acc.mp h.acyclic) fun c hc ↦
    (dirRound_ok_iff h₀ hsize).mpr (h.fits c hc)

end Dir

theorem tail_length {path : CStr} (h : path.any isDirdelim) : (tail path).length < path.length := by
  have hdrop : path.dropWhile (! isDirdelim ·) ≠ [] := by
    intro hnil
    obtain ⟨c, hc, hdelim⟩ := List.any_eq_true.mp h
    have hall := List.dropWhile_eq_nil_iff.mp hnil c hc
    rw [hdelim] at hall
    cases hall
  have hpos := List.length_pos_iff.mpr hdrop
  have hle := (List.dropWhile_suffix (p := (! isDirdelim ·)) (l := path)).length_le
  have hle' := (List.dropWhile_suffix (p := isDirdelim)
    (l := (path.dropWhile (! isDirdelim ·)).drop 1)).length_le
  rw [List.length_drop] at hle'
  rw [tail]
  omega

/-- What is left of the path, where the flag counts as a part. -/
def rest (look : Look) : ℕ := 2 * look.subname.length + look.firsttime.toNat

theorem rest_lt {look look' : Look} {r : Option Dent} (h : look.after dols r = .inl look') :
    rest look' < rest look := by
  cases r with
  | none => cases h
  | some dent =>
    rw [Look.after] at h
    split_ifs at h with hdir hisdir
    cases h
    rw [rest, rest, Look.next]
    split_ifs with hdelim
    · have hlt := tail_length hdelim
      have hle : ∀ b c : Bool, (b && c).toNat ≤ b.toNat := by decide
      have hflag := hle look.firsttime (¬ (dols ≠ 0 ∧ tail look.subname = []))
      dsimp only
      omega
    · have hfirst : dols ≠ 0 ∧ look.firsttime := by
        simpa [Look.isdir, hdelim] using hisdir
      simp [hfirst.1, hfirst.2]

def lookStep (d : Disk) (mydata : FsData) (s₀ : Buffers) (dols : ℤ) (n : ℕ) (look : Look) :
    Except Stop (Look ⊕ Dent ⊕ ℤ) :=
  value s₀ (lookRound d mydata dols look n)

theorem lookStep_eq (h₀ : Kept d mydata s₀ s₀) (n : ℕ) (look : Look) :
    lookStep d mydata s₀ dols n look =
      (value s₀ (getDentfromdir d mydata (head look.subname) (look.ls dols) (START mydata look.dent)
        n)).map (look.after dols) := by
  rw [lookStep, lookRound, value_bind h₀ (steady_getDentfromdir _ _ _ n) fun _ ↦ .pure _]
  cases value s₀ (getDentfromdir d mydata (head look.subname) (look.ls dols) (START mydata look.dent) n)
    <;> rfl

theorem value_searchDirs (h₀ : Kept d mydata s₀ s₀) (look : Look) (n : ℕ) :
    value s₀ (searchDirs d mydata dols look n) =
      loop (.error .rounds) (lookStep d mydata s₀ dols n) n look :=
  value_loop h₀ (steady_lookRound dols · n) n look

theorem ok_of_lookEnds (h₀ : Kept d mydata s₀ s₀) {look : Look} {z : Look ⊕ Dent ⊕ ℤ}
    (h : LookEnds d mydata s₀ dols look z) :
    ∃ N, ∀ n, N ≤ n → lookStep d mydata s₀ dols n look = .ok z := by
  obtain ⟨r, hr, rfl⟩ := h
  obtain ⟨N, hN⟩ := hr.ok (e := .rounds)
  refine ⟨N, fun n hn ↦ ?_⟩
  rw [lookStep_eq h₀, value_getDentfromdir h₀, hN n hn]
  rfl

/-- Sane directories are searched up to the last one. -/
theorem dirs_of_sane (h₀ : Kept d mydata s₀ s₀) (hsize : mydata.bytesperclust ≤ maxClustsize) {look : Look}
    (h : ∀ look', ReflTransGen (Enters d mydata s₀ dols) look look' → LookSane d mydata s₀ dols look') :
    ∃ look' x N, ReflTransGen (Enters d mydata s₀ dols) look look' ∧
      LookEnds d mydata s₀ dols look' (.inr x) ∧ ∀ n k, N ≤ n → N ≤ k →
        loop (.error .rounds) (lookStep d mydata s₀ dols n) k look = .ok x := by
  induction hk : rest look using Nat.strong_induction_on generalizing look with
  | h m ih =>
    obtain ⟨r, hr⟩ := dirEnds_of_sane h₀ hsize (h look .refl)
    obtain ⟨N, hN⟩ := ok_of_lookEnds h₀ ⟨r, hr, rfl⟩
    cases hafter : look.after dols r with
    | inl look' =>
      have henters : Enters d mydata s₀ dols look look' := ⟨r, hr, hafter⟩
      obtain ⟨last, x, N', hreach, hlast, hN'⟩ := ih (rest look') (hk ▸ rest_lt hafter)
        (fun look'' h' ↦ h look'' (.head henters h')) rfl
      refine ⟨last, x, max N N' + 1, .head henters hreach, hlast, fun n k hn hk ↦ ?_⟩
      obtain ⟨k, rfl⟩ := Nat.exists_eq_add_of_le' hk
      rw [← Nat.add_assoc, loop_goes ((hN n (by omega)).trans (congrArg _ hafter))]
      exact hN' n _ (by omega) (by omega)
    | inr x =>
      refine ⟨look, x, N + 1, .refl, ⟨r, hr, hafter⟩, fun n k hn hk ↦ ?_⟩
      obtain ⟨k, rfl⟩ := Nat.exists_eq_add_of_le' hk
      exact loop_ends ((hN n (by omega)).trans (congrArg _ hafter))

theorem look_ok (h₀ : Kept d mydata s₀ s₀) {look : Look} {n k : ℕ} {x : Dent ⊕ ℤ}
    (h : loop (.error .rounds) (lookStep d mydata s₀ dols n) k look = .ok x) :
    ∃ r, value s₀ (getDentfromdir d mydata (head look.subname) (look.ls dols) (START mydata look.dent)
      n) = .ok r := by
  have hok := body_ok h .refl
  rwa [lookStep_eq h₀, map_ok_iff] at hok

/-- What a round leads to is what it does. -/
theorem lookStep_of_ends (h₀ : Kept d mydata s₀ s₀) {look : Look} {n k : ℕ} {x : Dent ⊕ ℤ}
    {z : Look ⊕ Dent ⊕ ℤ} (h : loop (.error .rounds) (lookStep d mydata s₀ dols n) k look = .ok x)
    (hz : LookEnds d mydata s₀ dols look z) : lookStep d mydata s₀ dols n look = .ok z := by
  obtain ⟨r, hr⟩ := look_ok h₀ h
  obtain ⟨r', hends, rfl⟩ := hz
  rw [lookStep_eq h₀, hr]
  rw [value_getDentfromdir h₀] at hr
  rw [Ends.unique hr hends]
  rfl

theorem sane_of_dirs (h₀ : Kept d mydata s₀ s₀) (hsize : mydata.bytesperclust ≤ maxClustsize)
    {look look' : Look} {n k : ℕ} {x : Dent ⊕ ℤ}
    (h : loop (.error .rounds) (lookStep d mydata s₀ dols n) k look = .ok x)
    (hreach : ReflTransGen (Enters d mydata s₀ dols) look look') :
    LookSane d mydata s₀ dols look' ∧ ∀ y, LookEnds d mydata s₀ dols look' (.inr y) → y = x := by
  induction hreach using ReflTransGen.head_induction_on generalizing k with
  | refl =>
    obtain ⟨r, hr⟩ := look_ok h₀ h
    refine ⟨dirSane_of_ok h₀ hsize hr, fun y hy ↦ ?_⟩
    exact Ends.unique h ⟨look', .refl, lookStep_of_ends h₀ h hy⟩
  | head henters _ ih =>
    have hgoes := lookStep_of_ends h₀ h henters
    obtain ⟨k, -, ⟨next, hgoes', hrest⟩ | hend⟩ := loop_cases h
    · cases hgoes.symm.trans hgoes'
      exact ih hrest
    · cases hgoes.symm.trans hend

section Contents

theorem contentsTurn_eq (h₀ : Kept d mydata s₀ s₀) (r : Contents) (newclust : UInt32) :
    value s₀ (contentsTurn d mydata r newclust) =
      .ok (if newclust - 1 ≠ r.endclust then
        match getCluster d mydata r.curclust r.buffer r.pos r.actsize with
        | (false, buffer) => .inr (-1, buffer)
        | (true, buffer) => getit mydata r buffer (link d mydata s₀ r.endclust)
      else consecutive mydata r newclust) := by
  unfold contentsTurn
  split_ifs
  · rcases getCluster d mydata r.curclust r.buffer r.pos r.actsize with ⟨_ | _, buffer⟩
    · rfl
    · dsimp only
      rw [value_bind h₀ (steady_getFatent r.endclust) fun _ ↦ .pure _, value_getFatent h₀]
      rfl
  · rfl

theorem contentsStep_eq (h₀ : Kept d mydata s₀ s₀) (r : Contents) :
    contentsStep d mydata s₀ r =
      if r.actsize < r.filesize then
        value s₀ (contentsTurn d mydata r (link d mydata s₀ r.endclust))
      else .ok (.inr (lastBytes d mydata r)) := by
  unfold contentsStep contentsRound
  split_ifs
  · rw [value_bind h₀ (steady_getFatent r.endclust) (steady_contentsTurn r), value_getFatent h₀]
    rfl
  · rfl

theorem contents_ok (h₀ : Kept d mydata s₀ s₀) (r : Contents) :
    ∃ z, contentsStep d mydata s₀ r = .ok z := by
  rw [contentsStep_eq h₀, contentsTurn_eq h₀]
  split_ifs <;> exact ⟨_, rfl⟩

theorem consecutive_inl {r r' : Contents} {newclust : UInt32} :
    consecutive mydata r newclust = .inl r' ↔ ¬ endsReading newclust.toNat ∧
      r' = { r with
        endclust := newclust, actsize := (r.actsize + mydata.bytesperclust) % 4294967296 } := by
  rw [consecutive]
  split_ifs with hend
  · exact ⟨nofun, fun h ↦ absurd hend h.1⟩
  · rw [Sum.inl.injEq, eq_comm]
    exact ⟨fun h ↦ ⟨hend, h⟩, fun h ↦ h.2⟩

theorem getit_inl {r r' : Contents} {buffer : Mem} {curclust : UInt32} :
    getit mydata r buffer curclust = .inl r' ↔ ¬ endsReading curclust.toNat ∧
      r' = { filesize := r.filesize - r.actsize, gotsize := (r.gotsize + r.actsize) % 4294967296,
             curclust := curclust, endclust := curclust, actsize := mydata.bytesperclust,
             buffer := buffer, pos := r.pos + r.actsize } := by
  rw [getit]
  split_ifs with hend
  · exact ⟨nofun, fun h ↦ absurd hend h.1⟩
  · rw [Sum.inl.injEq, eq_comm]
    exact ⟨fun h ↦ ⟨hend, h⟩, fun h ↦ h.2⟩

/-- How the loop goes on: with the next cluster, or with the next run of clusters. -/
theorem contents_goes_iff (h₀ : Kept d mydata s₀ s₀) {r r' : Contents} :
    Goes (contentsStep d mydata s₀) r r' ↔
      r.actsize < r.filesize ∧
        if link d mydata s₀ r.endclust - 1 ≠ r.endclust then
          (getCluster d mydata r.curclust r.buffer r.pos r.actsize).1 = true ∧
            getit mydata r (getCluster d mydata r.curclust r.buffer r.pos r.actsize).2
              (link d mydata s₀ r.endclust) = .inl r'
        else consecutive mydata r (link d mydata s₀ r.endclust) = .inl r' := by
  rw [Goes, contentsStep_eq h₀, contentsTurn_eq h₀]
  split_ifs with hlt hrun <;> rw [Except.ok.injEq]
  · rcases getCluster d mydata r.curclust r.buffer r.pos r.actsize with ⟨_ | _, buffer⟩
    · exact ⟨nofun, nofun⟩
    · exact ⟨fun h ↦ ⟨hlt, rfl, h⟩, fun h ↦ h.2.2⟩
  · exact ⟨fun h ↦ ⟨hlt, h⟩, fun h ↦ h.2⟩
  · exact ⟨nofun, fun h ↦ absurd h.1 hlt⟩
  · exact ⟨nofun, fun h ↦ absurd h.1 hlt⟩

/-- Clusters that are consecutive have been counted without an overflow. -/
def Counted (mydata : FsData) (r : Contents) : Prop :=
  ∃ k, r.actsize = (k + 1) * mydata.bytesperclust ∧
    (k = 0 ∨ k ≤ r.endclust.toNat ∧ r.endclust.toNat < 0xfff0)

theorem Counted.goes (h₀ : Kept d mydata s₀ s₀) (hsize : mydata.bytesperclust ≤ maxClustsize)
    (hpos : 0 < mydata.bytesperclust) {r r' : Contents} (h : Counted mydata r)
    (hgoes : Goes (contentsStep d mydata s₀) r r') :
    Counted mydata r' ∧ 2 * r'.filesize - r'.actsize < 2 * r.filesize - r.actsize := by
  obtain ⟨hlt, hnext⟩ := (contents_goes_iff h₀).mp hgoes
  obtain ⟨k, hk, hcount⟩ := h
  split_ifs at hnext with hrun
  · obtain ⟨-, hnext⟩ := hnext
    obtain ⟨-, rfl⟩ := getit_inl.mp hnext
    refine ⟨⟨0, by rw [Nat.zero_add, Nat.one_mul], .inl rfl⟩, ?_⟩
    dsimp only
    omega
  · obtain ⟨hends, rfl⟩ := consecutive_inl.mp hnext
    have hlink : (link d mydata s₀ r.endclust).toNat = r.endclust.toNat + 1 := by
      have heq := congrArg UInt32.toNat (not_not.mp hrun)
      have hone : (1 : UInt32).toNat = 1 := rfl
      rw [endsReading] at hends
      rw [UInt32.toNat_sub_of_le _ _ (UInt32.le_iff_toNat_le.mpr (by omega)), hone] at heq
      omega
    rw [endsReading, hlink] at hends
    have hmul : (k + 1 + 1) * mydata.bytesperclust ≤ 0xfff0 * maxClustsize :=
      Nat.mul_le_mul (by omega) hsize
    have hactsize : r.actsize + mydata.bytesperclust = (k + 1 + 1) * mydata.bytesperclust := by
      rw [hk, ← Nat.succ_mul]
    have hmax : maxClustsize = 65536 := rfl
    rw [hmax] at hmul
    have hmod : (r.actsize + mydata.bytesperclust) % 4294967296 = r.actsize + mydata.bytesperclust :=
      Nat.mod_eq_of_lt (by omega)
    dsimp only
    refine ⟨⟨k + 1, hmod.trans hactsize, .inr ?_⟩, ?_⟩
    · dsimp only
      omega
    · omega

theorem Counted.acc (h₀ : Kept d mydata s₀ s₀) (hsize : mydata.bytesperclust ≤ maxClustsize)
    (hpos : 0 < mydata.bytesperclust) {r : Contents} (h : Counted mydata r) :
    Acc (fun y x ↦ Goes (contentsStep d mydata s₀) x y) r := by
  induction hm : 2 * r.filesize - r.actsize using Nat.strong_induction_on generalizing r with
  | h m ih =>
    refine Acc.intro r fun r' hgoes ↦ ?_
    obtain ⟨hcounted, hlt⟩ := h.goes h₀ hsize hpos hgoes
    exact ih _ (hm ▸ hlt) hcounted rfl

theorem getCluster_zero (clustnum : UInt32) (buffer : Mem) (pos : ℕ) :
    (getCluster d mydata clustnum buffer pos 0).1 =
      (diskRead d (startsect mydata clustnum.toNat) 0).isSome := by
  rw [getCluster, Nat.zero_div, Nat.zero_mod]
  cases diskRead d (startsect mydata clustnum.toNat) 0 <;> rfl

section Empty

variable (h₀ : Kept d mydata s₀ s₀) (hzero : mydata.bytesperclust = 0)

include h₀ hzero

theorem turn_of_goes {r r' : Contents} (hr : r.actsize = 0)
    (h : Goes (contentsStep d mydata s₀) r r') :
    Turn d mydata s₀ (r.curclust, r.endclust) (r'.curclust, r'.endclust) ∧ r'.actsize = 0 := by
  obtain ⟨-, hnext⟩ := (contents_goes_iff h₀).mp h
  rw [Turn]
  dsimp only
  split_ifs at hnext ⊢ with hrun
  · obtain ⟨hread, hnext⟩ := hnext
    obtain ⟨hends, rfl⟩ := getit_inl.mp hnext
    rw [hr, getCluster_zero] at hread
    exact ⟨⟨hends, hread, rfl⟩, hzero⟩
  · obtain ⟨hends, rfl⟩ := consecutive_inl.mp hnext
    refine ⟨⟨hends, rfl⟩, ?_⟩
    dsimp only
    rw [hr, hzero]

theorem goes_of_turn {r : Contents} {q : UInt32 × UInt32} (hr : r.actsize = 0) (hpos : r.filesize ≠ 0)
    (h : Turn d mydata s₀ (r.curclust, r.endclust) q) :
    ∃ r', Goes (contentsStep d mydata s₀) r r' ∧ (r'.curclust, r'.endclust) = q ∧
      r'.actsize = 0 ∧ r'.filesize ≠ 0 := by
  simp only [contents_goes_iff h₀]
  obtain ⟨hends, h⟩ := h
  dsimp only at hends h
  have hlt : r.actsize < r.filesize := by omega
  split_ifs at h ⊢ with hrun
  · obtain ⟨hread, rfl⟩ := h
    refine ⟨_, ⟨hlt, ?_, getit_inl.mpr ⟨hends, rfl⟩⟩, rfl, hzero, ?_⟩
    · rw [hr, getCluster_zero]
      exact hread
    · dsimp only
      omega
  · subst h
    refine ⟨_, ⟨hlt, consecutive_inl.mpr ⟨hends, rfl⟩⟩, rfl, ?_, hpos⟩
    dsimp only
    rw [hr, hzero]

theorem acc_of_turn {r : Contents} (hr : r.actsize = 0)
    (h : Acc (fun y x ↦ Turn d mydata s₀ x y) (r.curclust, r.endclust)) :
    Acc (fun y x ↦ Goes (contentsStep d mydata s₀) x y) r := by
  generalize hp : (r.curclust, r.endclust) = p at h
  induction h generalizing r with
  | intro p _ ih =>
    refine Acc.intro r fun r' hgoes ↦ ?_
    obtain ⟨hturn, hr'⟩ := turn_of_goes h₀ hzero hr hgoes
    exact ih _ (hp ▸ hturn) hr' rfl

theorem turn_of_acc {r : Contents} (hr : r.actsize = 0) (hpos : r.filesize ≠ 0)
    (h : Acc (fun y x ↦ Goes (contentsStep d mydata s₀) x y) r) :
    Acc (fun y x ↦ Turn d mydata s₀ x y) (r.curclust, r.endclust) := by
  induction h with
  | intro r _ ih =>
    refine Acc.intro _ fun q hturn ↦ ?_
    obtain ⟨r', hgoes, rfl, hr', hpos'⟩ := goes_of_turn h₀ hzero hr hpos hturn
    exact ih r' hgoes hr' hpos'

end Empty

theorem bytesperclust_eq_zero : mydata.bytesperclust = 0 ↔ mydata.clustSize = 0 := by
  rw [FsData.bytesperclust, Nat.mul_eq_zero, or_iff_left (by decide), ← UInt16.toNat_inj]
  rfl

theorem value_getContents (h₀ : Kept d mydata s₀ s₀) (n : ℕ) (dent : Dent) (buffer : Mem)
    (maxsize : UInt32) : value s₀ (getContents d mydata n dent buffer maxsize) =
      loop (.error .rounds) (contentsStep d mydata s₀) n
        (initial mydata dent buffer maxsize) :=
  value_loop h₀ steady_contentsRound n _

theorem contents_of_sane (h₀ : Kept d mydata s₀ s₀) (hsize : mydata.bytesperclust ≤ maxClustsize)
    {maxsize : UInt32} {dent : Dent} (h : ContentsSane d mydata s₀ maxsize dent) (buffer : Mem) :
    ∃ x N, ∀ n, N ≤ n → value s₀ (getContents d mydata n dent buffer maxsize) = .ok x := by
  have hacc : Acc (fun y x ↦ Goes (contentsStep d mydata s₀) x y)
      (initial mydata dent buffer maxsize) := by
    rcases Nat.eq_zero_or_pos mydata.bytesperclust with hzero | hpos
    · by_cases hempty : limited dent.entry maxsize = 0
      · refine Acc.intro _ fun r' hgoes ↦ ?_
        have hlt := ((contents_goes_iff h₀).mp hgoes).1
        rw [initial, hempty] at hlt
        exact absurd hlt (Nat.not_lt_zero _)
      · have hfinite := finite_uint32
        exact acc_of_turn h₀ hzero hzero
          (acyclic_iff_acc.mp (h (bytesperclust_eq_zero.mp hzero) hempty))
    · exact Counted.acc h₀ hsize hpos ⟨0, by rw [Nat.zero_add, Nat.one_mul]; rfl, .inl rfl⟩
  obtain ⟨x, hends⟩ := ends_of_acc hacc fun r _ ↦ contents_ok h₀ r
  simp only [value_getContents h₀]
  exact ⟨x, hends.ok⟩

theorem contentsSane_of_ok (h₀ : Kept d mydata s₀ s₀) {maxsize : UInt32} {dent : Dent} {buffer : Mem}
    {n : ℕ} {x : ℤ × Mem} (h : value s₀ (getContents d mydata n dent buffer maxsize) = .ok x) :
    ContentsSane d mydata s₀ maxsize dent := by
  intro hclust hpos
  have hzero := bytesperclust_eq_zero.mpr hclust
  rw [value_getContents h₀] at h
  exact acyclic_of_acc (turn_of_acc h₀ hzero hzero hpos (acc_of_ok h))

end Contents

section Root

theorem rootStep_eq (h₀ : Kept d mydata s₀ s₀) (hsize : mydata.bytesperclust ≤ maxClustsize)
    (p : UInt32 × Mem) :
    rootStep d mydata s₀ filename dols p =
      match diskRead d p.1.toNat mydata.clustSize.toNat with
      | none => .ok (.inr (.inr (-1)))
      | some sectors =>
        (value s₀ (scan (rootEntry d mydata filename dols) direntsPerBlock 0 (store p.2 0 sectors))).map
          (rootAfter dols p.1) := by
  rw [rootStep, rootRound, value_lift_bind, readRoot]
  cases diskRead d p.1.toNat mydata.clustSize.toNat with
  | none => rfl
  | some sectors =>
    dsimp only
    rw [if_pos hsize]
    change value s₀ (scan _ _ 0 _ >>= fun r ↦ pure (rootAfter dols p.1 r)) = _
    rw [value_bind h₀ (steady_scan (steady_rootEntry filename dols) _ 0 _) fun _ ↦ .pure _]
    cases value s₀ (scan (rootEntry d mydata filename dols) direntsPerBlock 0 (store p.2 0 sectors)) <;> rfl

theorem rootStep_goes (h₀ : Kept d mydata s₀ s₀) (hsize : mydata.bytesperclust ≤ maxClustsize)
    {p p' : UInt32 × Mem} (h : Goes (rootStep d mydata s₀ filename dols) p p') :
    diskRead d p.1.toNat mydata.clustSize.toNat ≠ none ∧ p'.1 = p.1 + 1 := by
  rw [Goes, rootStep_eq h₀ hsize] at h
  split at h
  · cases h
  · next sectors hread =>
    refine ⟨by rw [hread]; exact Option.some_ne_none _, ?_⟩
    cases hscan : value s₀ (scan (rootEntry d mydata filename dols) direntsPerBlock 0
        (store p.2 0 sectors)) with
    | error e =>
      rw [hscan] at h
      cases h
    | ok r =>
      rw [hscan] at h
      cases r <;> cases h
      rfl

/-- The sectors of the device run out. -/
theorem root_acc (h₀ : Kept d mydata s₀ s₀) (hsize : mydata.bytesperclust ≤ maxClustsize)
    (p : UInt32 × Mem) : Acc (fun y x ↦ Goes (rootStep d mydata s₀ filename dols) x y) p := by
  induction hm : d.lba.toNat - (p.1.toNat + d.dev.partOffset.toNat) % 4294967296
    using Nat.strong_induction_on generalizing p with
  | h m ih =>
    refine Acc.intro p fun p' hgoes ↦ ?_
    obtain ⟨hread, hnext⟩ := rootStep_goes h₀ hsize hgoes
    refine ih _ ?_ p' rfl
    rw [diskRead] at hread
    split_ifs at hread with hinside
    · have hlba := d.lba.toNat_lt
      have hsucc : (p.1 + 1).toNat = (p.1.toNat + 1) % 4294967296 := UInt32.toNat_add p.1 1
      rw [hnext, hsucc]
      omega
    · exact absurd rfl hread

theorem value_searchRoot (h₀ : Kept d mydata s₀ s₀) (n : ℕ) (block : Mem) :
    value s₀ (searchRoot d mydata filename dols n block) =
      loop (.error .rounds) (rootStep d mydata s₀ filename dols) n (mydata.rootdirSect.toUInt32, block) :=
  value_loop h₀ (steady_rootRound filename dols) n _

theorem rootEnds_of_fits (h₀ : Kept d mydata s₀ s₀) (hsize : mydata.bytesperclust ≤ maxClustsize)
    {p : UInt32 × Mem} (h : ∀ p', ReflTransGen (Goes (rootStep d mydata s₀ filename dols)) p p' →
      RootFits d mydata s₀ filename dols p') :
    ∃ r, Ends (rootStep d mydata s₀ filename dols) p r :=
  ends_of_acc (root_acc h₀ hsize p) fun p' hp ↦ (rootRound_ok_iff h₀ hsize).mpr (h p' hp)

end Root

section Search

variable (d : Disk) (mydata : FsData) (s₀ : Buffers) (c : Call)

/-- The path leads from the result in the root directory to the entry whose contents are read. -/
def Opens (r : Dent ⊕ ℤ) (dent : Dent) : Prop :=
  ∃ dir, r = .inl dir ∧
    if c.isdir then
      dir.isDir ∧ ∃ look, ReflTransGen (Enters d mydata s₀ c.dolsRoot) (c.look dir) look ∧
        LookEnds d mydata s₀ c.dolsRoot look (.inr (.inl dent))
    else dir = dent

/-- The directories on the path are sane. -/
def PathSane (r : Dent ⊕ ℤ) : Prop :=
  ∀ dir, r = .inl dir → c.isdir → dir.isDir →
    ∀ look, ReflTransGen (Enters d mydata s₀ c.dolsRoot) (c.look dir) look →
      LookSane d mydata s₀ c.dolsRoot look

def rootBody : UInt32 × Mem → Except Stop (UInt32 × Mem ⊕ Dent ⊕ ℤ) :=
  rootStep d mydata s₀ (head c.fnamecopy) c.dolsRoot

def rootStart : UInt32 × Mem := (mydata.rootdirSect.toUInt32, c.rootBlock)

structure SearchSane : Prop where
  root : ∀ p, ReflTransGen (Goes (rootBody d mydata s₀ c)) (rootStart mydata c) p →
    RootFits d mydata s₀ (head c.fnamecopy) c.dolsRoot p
  path : ∀ r, Ends (rootBody d mydata s₀ c) (rootStart mydata c) r → PathSane d mydata s₀ c r
  contents : ∀ r dent, Ends (rootBody d mydata s₀ c) (rootStart mydata c) r →
    Opens d mydata s₀ c r dent → ContentsSane d mydata s₀ c.maxsize dent

variable {d mydata s₀ c}

theorem descend_of_sane (h₀ : Kept d mydata s₀ s₀) (hsize : mydata.bytesperclust ≤ maxClustsize)
    {r : Dent ⊕ ℤ} (h : PathSane d mydata s₀ c r) :
    ∃ y N, (∀ n, N ≤ n → value s₀ (descend d mydata c n r) = .ok y) ∧
      ∀ dent, y = .inl dent → Opens d mydata s₀ c r dent := by
  cases r with
  | inr ret => exact ⟨.inr ret, 0, fun _ _ ↦ rfl, fun _ hdent ↦ absurd hdent Sum.inr_ne_inl⟩
  | inl dir =>
    simp only [descend, Opens, Sum.inl.injEq, exists_eq_left']
    split_ifs with hisdir hdir
    · obtain ⟨look, y, N, hreach, hlast, hN⟩ := dirs_of_sane h₀ hsize (h dir rfl hisdir hdir)
      refine ⟨y, N, fun n hn ↦ ?_, fun dent hdent ↦ ⟨hdir, look, hreach, hdent ▸ hlast⟩⟩
      rw [value_searchDirs h₀]
      exact hN n n hn hn
    · exact ⟨_, 0, fun _ _ ↦ rfl, fun _ hdent ↦ absurd hdent Sum.inr_ne_inl⟩
    · exact ⟨_, 0, fun _ _ ↦ rfl, fun _ hdent ↦ Sum.inl_injective hdent⟩

theorem sane_of_descend (h₀ : Kept d mydata s₀ s₀) (hsize : mydata.bytesperclust ≤ maxClustsize)
    {r y : Dent ⊕ ℤ} {n : ℕ} (h : value s₀ (descend d mydata c n r) = .ok y) :
    PathSane d mydata s₀ c r ∧ ∀ dent, Opens d mydata s₀ c r dent → y = .inl dent := by
  constructor
  · rintro dir rfl hisdir hdir look hreach
    rw [descend, if_pos hisdir, if_pos hdir, value_searchDirs h₀] at h
    exact (sane_of_dirs h₀ hsize h hreach).1
  · rintro dent ⟨dir, rfl, hopens⟩
    rw [descend] at h
    split_ifs at h hopens with hisdir hdir
    · obtain ⟨-, look, hreach, hlast⟩ := hopens
      rw [value_searchDirs h₀] at h
      exact ((sane_of_dirs h₀ hsize h hreach).2 _ hlast).symm
    · exact absurd hopens.1 hdir
    · cases h
      rw [hopens]

theorem value_search (h₀ : Kept d mydata s₀ s₀) (n : ℕ) :
    value s₀ (search d mydata c n) =
      loop (.error .rounds) (rootBody d mydata s₀ c) n (rootStart mydata c) >>= fun r ↦
        value s₀ (descend d mydata c n r) >>= fun r ↦ value s₀ (contentsOf d mydata c n r) := by
  have hroot : Steady (Kept d mydata s₀)
      (searchRoot d mydata (head c.fnamecopy) c.dolsRoot n c.rootBlock) := .loop (steady_rootRound _ _) n _
  rw [search, value_bind h₀ hroot, value_searchRoot h₀]
  · refine congrArg _ (funext fun r ↦ ?_)
    exact value_bind h₀ (steady_descend c n r) (steady_contentsOf c n)
  · exact fun r ↦ .bind (steady_descend c n r) (steady_contentsOf c n)

theorem search_of_sane (h₀ : Kept d mydata s₀ s₀) (hsize : mydata.bytesperclust ≤ maxClustsize)
    (h : SearchSane d mydata s₀ c) : ∃ n x, value s₀ (search d mydata c n) = .ok x := by
  obtain ⟨r, hr⟩ := rootEnds_of_fits h₀ hsize h.root
  obtain ⟨N, hN⟩ := hr.ok (e := .rounds)
  obtain ⟨y, N', hN', hopens⟩ := descend_of_sane h₀ hsize (h.path r hr)
  simp only [value_search h₀]
  cases y with
  | inr ret =>
    refine ⟨max N N', (ret, c.buffer), ?_⟩
    rw [rootBody, hN _ (Nat.le_max_left N N')]
    change value s₀ (descend d mydata c _ r) >>= _ = _
    rw [hN' _ (Nat.le_max_right N N')]
    rfl
  | inl dent =>
    obtain ⟨x, N'', hN''⟩ := contents_of_sane h₀ hsize (h.contents r dent hr (hopens dent rfl)) c.buffer
    refine ⟨max N (max N' N''), x, ?_⟩
    rw [rootBody, hN _ (Nat.le_max_left _ _)]
    change value s₀ (descend d mydata c _ r) >>= _ = _
    rw [hN' _ (by omega)]
    exact hN'' _ (by omega)

theorem searchSane_of_ok (h₀ : Kept d mydata s₀ s₀) (hsize : mydata.bytesperclust ≤ maxClustsize)
    {n : ℕ} {x : ℤ × Mem} (h : value s₀ (search d mydata c n) = .ok x) : SearchSane d mydata s₀ c := by
  rw [value_search h₀] at h
  obtain ⟨r, hr, hrest⟩ := bind_ok_iff.mp ⟨x, h⟩
  obtain ⟨y, hy, z, hz⟩ := bind_ok_iff.mp hrest
  obtain ⟨hpath, hopens⟩ := sane_of_descend h₀ hsize hy
  refine ⟨fun p hp ↦ ?_, fun r' hr' ↦ ?_, fun r' dent hr' hdent ↦ ?_⟩
  · exact (rootRound_ok_iff h₀ hsize).mp (body_ok hr hp)
  · rwa [Ends.unique hr hr']
  · rw [Ends.unique hr hr'] at hdent
    rw [hopens dent hdent] at hz
    exact contentsSane_of_ok h₀ hz

theorem rootStep_large (hlarge : maxClustsize < mydata.bytesperclust) (p : UInt32 × Mem) :
    (∃ z, rootStep d mydata s₀ filename dols p = .ok z) ↔
      diskRead d p.1.toNat mydata.clustSize.toNat = none := by
  rw [rootStep, rootRound, value_lift_bind, readRoot]
  cases diskRead d p.1.toNat mydata.clustSize.toNat with
  | none => exact ⟨fun _ ↦ rfl, fun _ ↦ ⟨_, rfl⟩⟩
  | some sectors =>
    dsimp only
    rw [if_neg (Nat.not_le.mpr hlarge)]
    constructor
    · rintro ⟨z, hz⟩
      cases hz
    · intro hnone
      cases hnone

/-- With clusters larger than the arrays the first read must fail. -/
theorem search_large (h₀ : Kept d mydata s₀ s₀) (hlarge : maxClustsize < mydata.bytesperclust) :
    (∃ n x, value s₀ (search d mydata c n) = .ok x) ↔
      diskRead d mydata.rootdirSect.toNat mydata.clustSize.toNat = none := by
  simp only [value_search h₀]
  constructor
  · rintro ⟨n, x, h⟩
    obtain ⟨r, hr, -⟩ := bind_ok_iff.mp ⟨x, h⟩
    exact (rootStep_large hlarge (rootStart mydata c)).mp (body_ok hr .refl)
  · intro hread
    have hbody : rootBody d mydata s₀ c (rootStart mydata c) = .ok (.inr (.inr (-1))) := by
      have hfirst : diskRead d (rootStart mydata c).1.toNat mydata.clustSize.toNat = none := hread
      rw [rootBody, rootStep, rootRound, value_lift_bind, readRoot, hfirst]
      rfl
    refine ⟨1, (-1, c.buffer), ?_⟩
    rw [loop_ends hbody]
    rfl

end Search

end

/-- A device with a boot sector that is accepted. -/
structure Volume where
  d : Disk
  bs : BootSector
  fatsize : ℕ
  boot : FatLookup.readBootsectandvi d = some (bs, fatsize)

section Volume

variable (v : Volume) (c : Call)

def Volume.mydata : FsData := Fat.doFatRead v.bs v.fatsize c.fatbuf

/-- `do_fat_read` comes to its end, and stays in its arrays. -/
def Returns : Prop := ∃ n x, FatLookup.doFatRead v.d c n = .ok x

/-- Something is to be looked up. -/
def Call.Searches : Prop := ¬ (c.fnamecopy = [] ∧ c.dols = 0)

structure Sane : Prop where
  length : c.fnamecopy.length < 2048
  size : Call.Searches c → maxClustsize < (v.mydata c).bytesperclust →
    diskRead v.d (v.mydata c).rootdirSect.toNat (v.mydata c).clustSize.toNat = none
  search : Call.Searches c → (v.mydata c).bytesperclust ≤ maxClustsize →
    SearchSane v.d (v.mydata c) c.buffers c

/-- The lookup returns just if the directories on the path have no cycle that the search runs into and
the long names that it meets have room. -/
theorem do_fat_read_returns_iff : Returns v c ↔ Sane v c := by
  have h₀ : Kept v.d (v.mydata c) c.buffers c.buffers := kept_self rfl
  have hrun : ∀ n, FatLookup.doFatRead v.d c n =
      if c.fnamecopy.length < 2048 then
        if c.fnamecopy = [] ∧ c.dols = 0 then .ok (-1, c.buffer)
        else value c.buffers (search v.d (v.mydata c) c n)
      else .error .outside := by
    intro n
    rw [FatLookup.doFatRead, v.boot]
    rfl
  rw [Returns]
  simp only [hrun]
  by_cases hlength : c.fnamecopy.length < 2048
  · by_cases hnone : c.fnamecopy = [] ∧ c.dols = 0
    · simp only [if_pos hlength, if_pos hnone]
      exact ⟨fun _ ↦ ⟨hlength, fun h ↦ absurd hnone h, fun h ↦ absurd hnone h⟩, fun _ ↦ ⟨0, _, rfl⟩⟩
    · simp only [if_pos hlength, if_neg hnone]
      rcases Nat.lt_or_ge maxClustsize (v.mydata c).bytesperclust with hlarge | hsize
      · rw [search_large h₀ hlarge]
        exact ⟨fun h ↦ ⟨hlength, fun _ _ ↦ h, fun _ hle ↦ absurd hlarge (Nat.not_lt.mpr hle)⟩,
          fun h ↦ h.size hnone hlarge⟩
      · constructor
        · rintro ⟨n, x, h⟩
          exact ⟨hlength, fun _ hlarge ↦ absurd hlarge (Nat.not_lt.mpr hsize),
            fun _ _ ↦ searchSane_of_ok h₀ hsize h⟩
        · exact fun h ↦ search_of_sane h₀ hsize (h.search hnone hsize)
  · simp only [if_neg hlength]
    exact ⟨nofun, fun h ↦ absurd h.length hlength⟩

end Volume

/-- A FAT16 whose root directory begins with a long name of 20 slots without a NUL. -/
def longDisk : Disk where
  dev :=
    { disk := fun k ↦
        if k = 13 then 2
        else if k = 14 ∨ k = 16 ∨ k = 22 then 1
        else if k = 17 then 32
        else if 54 ≤ k ∧ k < 62 then (ascii "FAT16   ").getD (k - 54) 0
        else if 1024 ≤ k ∧ k < 1664 then
          if k = 1024 then 0x54
          else if k % 32 = 0 then UInt8.ofNat (20 - (k - 1024) / 32)
          else if k % 32 = 11 then 0x0f
          else 0x61
        else if 1664 ≤ k ∧ k < 1675 then 0x42
        else if k = 1675 then 0x20
        else 0
      partOffset := 0 }
  lba := 64

def longVolume : Volume where
  d := longDisk
  bs := ⟨2, 1, 1, (32, 0), 1, 0⟩
  fatsize := 16
  boot := by decide +kernel

def longCall : Call :=
  { filename := ascii "b"
    buffer := fun _ ↦ 0
    maxsize := 0
    dols := 0
    fatbuf := fun _ ↦ 0
    rootBlock := fun _ ↦ 0
    vfatname := fun _ ↦ 0 }

/-- The block that is read first. -/
def longBlock : Mem := fun k ↦ if k < 1024 then longDisk.dev.disk (1024 + k) else 0

theorem readRoot_long : readRoot longDisk (longVolume.mydata longCall)
    (rootStart (longVolume.mydata longCall) longCall).1
    (rootStart (longVolume.mydata longCall) longCall).2 = .ok (some longBlock) := by
  have hread : diskRead longDisk (rootStart (longVolume.mydata longCall) longCall).1.toNat
      (longVolume.mydata longCall).clustSize.toNat = some (bytes longDisk.dev.disk 1024 1024) := rfl
  have hsize : (longVolume.mydata longCall).bytesperclust ≤ maxClustsize := by decide
  have hblock : store (fun _ ↦ 0) 0 (bytes longDisk.dev.disk 1024 1024) = longBlock := by
    funext k
    rw [longBlock]
    split_ifs with hk
    · exact store_bytes _ _ _ _ k hk
    · rw [store_of_le]
      rw [bytes_length]
      omega
  rw [readRoot, hread, ← hblock]
  exact if_pos hsize

/-- The slots have 260 characters, which is more than `l_name` can hold. -/
theorem do_fat_read_overruns : ¬ Returns longVolume longCall := by
  rintro ⟨n, x, h⟩
  have h₀ : Kept longVolume.d (longVolume.mydata longCall) longCall.buffers longCall.buffers :=
    kept_self rfl
  have hlength : longCall.fnamecopy.length < 2048 := by decide
  have hname : ¬ (longCall.fnamecopy = [] ∧ longCall.dols = 0) := by decide
  rw [FatLookup.doFatRead, longVolume.boot] at h
  dsimp only at h
  rw [if_pos hlength, if_neg hname] at h
  have hfits := (searchSane_of_ok h₀ (by decide) h).root _ .refl longBlock readRoot_long
  obtain ⟨m, hm, hlt⟩ := hfits.1 (by decide) (by decide) 20 (by decide +kernel)
  have hown : ownLength longBlock 20 = some 260 := by decide +kernel
  cases hm.symm.trans hown
  exact absurd hlt (by decide)

end UBoot.Fs.FatLookupEnds
