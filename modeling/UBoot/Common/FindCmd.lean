import Mathlib.Data.List.Nodup
import UBoot.Common.Main

namespace UBoot.Common.FindCmd

open Lib.CString

variable {α : Type}

/-- `strncmp (s, t, n) == 0`. -/
def strncmpEq : ℕ → CStr → CStr → Bool
  | 0, _, _ => true
  | n + 1, s, t =>
    if first s ≠ first t then false
    else if first s = 0 then true
    else strncmpEq n s.tail t.tail

def dot : UInt8 := 0x2e

/-- `len` in `find_cmd`: the length of a command word in front of its first dot. -/
def cmdLen (cmd : CStr) : ℕ := (strchr cmd dot).getD cmd.length

/-- The loop of `find_cmd` with `n_found` and `cmdtp_temp`, and the test behind it. -/
def findCmdLoop (name : α → CStr) (cmd : CStr) (len : ℕ) : List α → ℕ → Option α → Option α
  | [], found, temp => if found = 1 then temp else none
  | e :: es, found, temp =>
    if strncmpEq len cmd (name e) then
      if len = (name e).length then some e
      else findCmdLoop name cmd len es (found + 1) (some e)
    else findCmdLoop name cmd len es found temp

/-- `find_cmd` on a table whose entries have these names. -/
def findCmd (name : α → CStr) (table : List α) (cmd : CStr) : Option α :=
  findCmdLoop name cmd (cmdLen cmd) table 0 table.head?

/-- The part of a command word that is compared. -/
def compared (cmd : CStr) : CStr := cmd.takeWhile (· != dot)

/-- The entry has the word as a proper prefix. -/
def Abbreviates (name : α → CStr) (table : List α) (word : CStr) (e : α) : Prop :=
  e ∈ table ∧ word <+: name e ∧ name e ≠ word

/-- What a lookup by full or abbreviated name should find. -/
inductive Finds (name : α → CStr) (table : List α) (word : CStr) : Option α → Prop
  | full {e : α} : e ∈ table → name e = word → Finds name table word (some e)
  | abbreviated {e : α} : (∀ x ∈ table, name x ≠ word) → Abbreviates name table word e →
      (∀ x, Abbreviates name table word x → x = e) → Finds name table word (some e)
  | missing : (∀ x ∈ table, name x ≠ word) →
      (∀ e, Abbreviates name table word e → ∃ x, Abbreviates name table word x ∧ x ≠ e) →
      Finds name table word none

theorem strncmpEq_iff {n : ℕ} {s t : CStr} (hn : n ≤ s.length) (hs : NulFree s) :
    strncmpEq n s t = true ↔ s.take n <+: t := by
  induction n generalizing s t with
  | zero => simp [strncmpEq]
  | succ n ih =>
    obtain _ | ⟨c, s⟩ := s
    · simp at hn
    have hc : c ≠ 0 := hs c (by simp)
    have hs' : NulFree s := fun x hx ↦ hs x (by simp [hx])
    obtain _ | ⟨d, t⟩ := t
    · simp [strncmpEq, first, hc]
    · by_cases hcd : c = d
      · simp [strncmpEq, first, hcd, hcd ▸ hc, ih (by simpa using hn) hs', List.cons_prefix_cons]
      · simp [strncmpEq, first, hcd, List.cons_prefix_cons]

theorem cmdLen_eq (cmd : CStr) : cmdLen cmd = (compared cmd).length := by
  induction cmd with
  | nil => rfl
  | cons c cmd ih =>
    simp only [cmdLen, strchr, compared] at ih ⊢
    by_cases hc : c = dot
    · simp [List.findIdx?_cons, hc]
    · simp only [List.findIdx?_cons, List.takeWhile_cons, hc, beq_iff_eq, bne_iff_ne, ne_eq,
        not_false_eq_true, ↓reduceIte, List.length_cons, ← ih]
      cases cmd.findIdx? (· == dot) <;> simp

theorem take_cmdLen (cmd : CStr) : cmd.take (cmdLen cmd) = compared cmd := by
  have hprefix : compared cmd <+: cmd := List.takeWhile_prefix _
  rw [cmdLen_eq, ← List.prefix_iff_eq_take.mp hprefix]

/-- The loop gives the first full match, and without one the last of the longer names, if it has
counted one match in all. -/
theorem findCmdLoop_eq (name : α → CStr) {cmd : CStr} (hcmd : NulFree cmd) (es : List α) (found : ℕ)
    (temp : Option α) :
    findCmdLoop name cmd (cmdLen cmd) es found temp =
      (es.find? fun e ↦ name e == compared cmd).or
        (if found + (es.filter fun e ↦ (compared cmd).isPrefixOf (name e)).length = 1 then
          (es.filter fun e ↦ (compared cmd).isPrefixOf (name e)).getLast?.or temp
        else none) := by
  have hlen : cmdLen cmd ≤ cmd.length := by
    rw [cmdLen_eq]
    exact (List.takeWhile_prefix _).length_le
  induction es generalizing found temp with
  | nil => rfl
  | cons e es ih =>
    have hmatch : strncmpEq (cmdLen cmd) cmd (name e) = true ↔ compared cmd <+: name e := by
      rw [strncmpEq_iff hlen hcmd, take_cmdLen]
    rw [findCmdLoop]
    by_cases hpre : compared cmd <+: name e
    · rw [if_pos (hmatch.mpr hpre), cmdLen_eq]
      by_cases hfull : name e = compared cmd
      · rw [if_pos (by rw [hfull]), List.find?_cons_of_pos (by simp [hfull]), Option.some_or]
      · rw [if_neg fun h ↦ hfull (hpre.eq_of_length h).symm, ← cmdLen_eq, ih,
          List.find?_cons_of_neg (by simp [hfull]), List.filter_cons_of_pos (by simpa using hpre),
          List.length_cons, List.getLast?_cons, Option.some_or, Nat.add_right_comm, Nat.add_assoc]
        cases (es.filter fun e ↦ (compared cmd).isPrefixOf (name e)).getLast? <;> rfl
    · have hfull : name e ≠ compared cmd := fun h ↦ hpre (h ▸ List.prefix_rfl)
      rw [if_neg (mt hmatch.mp hpre), ih, List.find?_cons_of_neg (by simp [hfull]),
        List.filter_cons_of_neg (by simpa using hpre)]

theorem findCmd_eq (name : α → CStr) (table : List α) {cmd : CStr} (hcmd : NulFree cmd) :
    findCmd name table cmd =
      (table.find? fun e ↦ name e == compared cmd).or
        (if (table.filter fun e ↦ (compared cmd).isPrefixOf (name e)).length = 1 then
          (table.filter fun e ↦ (compared cmd).isPrefixOf (name e)).getLast?
        else none) := by
  rw [findCmd, findCmdLoop_eq name hcmd, Nat.zero_add]
  congr 1
  split_ifs with hone
  · obtain ⟨e, he⟩ := List.length_eq_one_iff.mp hone
    rw [he]
    rfl
  · rfl

/-- `run_command` looks its command up in this way. -/
theorem findCmd_eq_lookup {σ : Type} (table : List (Main.CmdTbl σ)) {cmd : CStr}
    (hcmd : NulFree cmd) : findCmd Main.CmdTbl.name table cmd = Main.findCmd table cmd := by
  have hword : cmd.takeWhile (· != 0x2e) = compared cmd := rfl
  rw [findCmd_eq _ _ hcmd, Main.findCmd, hword]
  cases table.find? fun e ↦ e.name == compared cmd with
  | some e => rfl
  | none =>
    rw [Option.none_or]
    generalize table.filter (fun e ↦ (compared cmd).isPrefixOf e.name) = short
    rcases short with _ | ⟨e, _ | ⟨d, es⟩⟩
    · rfl
    · rfl
    · simp

variable {name : α → CStr} {table table' : List α} {word cmd : CStr} {r r' : Option α}

theorem abbreviates_iff (hno : ∀ x ∈ table, name x ≠ word) (e : α) :
    Abbreviates name table word e ↔ e ∈ table.filter fun e ↦ word.isPrefixOf (name e) := by
  rw [List.mem_filter, List.isPrefixOf_iff_prefix]
  exact ⟨fun h ↦ ⟨h.1, h.2.1⟩, fun h ↦ ⟨h.1, h.2, hno e h.1⟩⟩

theorem finds_findCmd (hcmd : NulFree cmd) (hnames : (table.map name).Nodup) :
    Finds name table (compared cmd) (findCmd name table cmd) := by
  rw [findCmd_eq name table hcmd]
  cases hfind : table.find? fun e ↦ name e == compared cmd with
  | some e =>
    rw [Option.some_or]
    exact .full (List.mem_of_find?_eq_some hfind) (by simpa using List.find?_some hfind)
  | none =>
    have hno : ∀ x ∈ table, name x ≠ compared cmd := by simpa using hfind
    have habbr := abbreviates_iff hno
    have hnodup : (table.filter fun e ↦ (compared cmd).isPrefixOf (name e)).Nodup :=
      (List.Nodup.of_map name hnames).filter _
    rw [Option.none_or]
    generalize (table.filter fun e ↦ (compared cmd).isPrefixOf (name e)) = short at habbr hnodup ⊢
    rcases short with _ | ⟨e, _ | ⟨d, es⟩⟩
    · exact .missing hno fun e he ↦ absurd ((habbr e).mp he) List.not_mem_nil
    · exact .abbreviated hno ((habbr e).mpr (by simp)) fun x hx ↦ by simpa using (habbr x).mp hx
    · refine .missing hno fun x _ ↦ ?_
      -- of two different entries one is not `x`
      have hde : e ≠ d := fun h ↦ (List.nodup_cons.mp hnodup).1 (h ▸ List.mem_cons_self)
      by_cases hx : x = e
      · exact ⟨d, (habbr d).mpr (by simp), fun h ↦ hde (hx ▸ h.symm)⟩
      · exact ⟨e, (habbr e).mpr (by simp), fun h ↦ hx h.symm⟩

/-- What a lookup should find depends on which entries there are, not on their order. -/
theorem Finds.unique (h : Finds name table word r) (h' : Finds name table' word r')
    (hnames : (table.map name).Nodup) (hsame : ∀ e, e ∈ table ↔ e ∈ table') : r = r' := by
  have habbr (e : α) : Abbreviates name table word e ↔ Abbreviates name table' word e := by
    rw [Abbreviates, Abbreviates, hsame]
  cases h with
  | @full e he hname =>
    cases h' with
    | @full e' he' hname' =>
      rw [List.inj_on_of_nodup_map hnames he ((hsame e').mpr he') (hname.trans hname'.symm)]
    | abbreviated hno => exact absurd hname (hno e ((hsame e).mp he))
    | missing hno => exact absurd hname (hno e ((hsame e).mp he))
  | @abbreviated e hno he honly =>
    cases h' with
    | @full e' he' hname' => exact absurd hname' (hno e' ((hsame e').mpr he'))
    | @abbreviated e' _ he' _ => rw [honly e' ((habbr e').mpr he')]
    | missing _ hmany =>
      obtain ⟨x, hx, hne⟩ := hmany e ((habbr e).mp he)
      exact absurd (honly x ((habbr x).mpr hx)) hne
  | missing hno hmany =>
    cases h' with
    | @full e' he' hname' => exact absurd hname' (hno e' ((hsame e').mpr he'))
    | @abbreviated e' _ he' honly' =>
      obtain ⟨x, hx, hne⟩ := hmany e' ((habbr e').mpr he')
      exact absurd (honly' x ((habbr x).mp hx)) hne
    | missing => rfl

/-- Lookup finds the full name, or the only entry that the word abbreviates, in any order of the
table. -/
theorem find_cmd_order_independent (hcmd : NulFree cmd) (hnames : (table.map name).Nodup) :
    Finds name table (compared cmd) (findCmd name table cmd) ∧
      ∀ table', table'.Perm table → findCmd name table' cmd = findCmd name table cmd := by
  refine ⟨finds_findCmd hcmd hnames, fun table' hperm ↦ ?_⟩
  have hnames' : (table'.map name).Nodup := (hperm.map name).nodup_iff.mpr hnames
  exact (finds_findCmd hcmd hnames').unique (finds_findCmd hcmd hnames) hnames'
    fun e ↦ hperm.mem_iff

/-- `cp.b` among `cp`, `cpu` and `crc32`. -/
theorem find_cmd_order_independent_cp :
    Finds id [ascii "crc32", ascii "cpu", ascii "cp"] (compared (ascii "cp.b")) (some (ascii "cp")) ∧
      ∀ table', table'.Perm [ascii "crc32", ascii "cpu", ascii "cp"] →
        findCmd id table' (ascii "cp.b") = some (ascii "cp") :=
  find_cmd_order_independent (by decide) (by decide)

end UBoot.Common.FindCmd
