import UBoot.Common.Main

namespace UBoot.Common.RunCommand

open Lib.CString Main

/-- The blank-separated words of a line. -/
def words (line : CStr) : List CStr := (line.splitOnP isBlank).filter (· ≠ [])

def TooMany (line : CStr) : Prop := cfgMaxargs < (words line).length

theorem words_nil : words [] = [] := by
  simp [words]

theorem words_blank {c : UInt8} (h : isBlank c = true) (line : CStr) :
    words (c :: line) = words line := by
  simp [words, List.splitOnP_cons_eq_if_modifyHead, h]

theorem words_dropWhile (line : CStr) : words (line.dropWhile isBlank) = words line := by
  induction line with
  | nil => rfl
  | cons c line ih =>
    by_cases h : isBlank c = true
    · rw [List.dropWhile_cons_of_pos h, ih, words_blank h]
    · rw [List.dropWhile_cons_of_neg h]

section Word

variable {word : CStr} (hne : word ≠ []) (hword : ∀ c ∈ word, isBlank c = false)

include hne hword

theorem words_word : words word = [word] := by
  simp [words, List.splitOnP_eq_singleton hword, hne]

theorem words_append {c : UInt8} (hc : isBlank c = true) (rest : CStr) :
    words (word ++ c :: rest) = word :: words rest := by
  simp [words, List.splitOnP_append_cons_of_forall_mem hword c hc, hne]

end Word

/-- `parse_line` returns the first words, and nothing tells the caller that there are more. -/
theorem parseLine_eq (n : ℕ) (line : CStr) : (parseLine n line).1 = (words line).take n := by
  induction n generalizing line with
  | zero => rfl
  | succ n ih =>
    rw [parseLine, ← words_dropWhile line]
    have hhead : ∀ c, (line.dropWhile isBlank).head? = some c → isBlank c = false := by
      intro c hc
      have h := List.head?_dropWhile_not isBlank line
      rw [hc] at h
      simpa using h
    generalize line.dropWhile isBlank = line' at hhead ⊢
    have hsplit := List.takeWhile_append_dropWhile (p := fun c ↦ !isBlank c) (l := line')
    have hword : ∀ c ∈ line'.takeWhile (fun c ↦ !isBlank c), isBlank c = false := by
      intro c hc
      simpa using List.mem_takeWhile_imp hc
    cases line' with
    | nil => simp [words_nil]
    | cons c tail =>
      have hne : (c :: tail).takeWhile (fun c ↦ !isBlank c) ≠ [] := by
        simp [hhead c rfl]
      simp only [List.cons_ne_nil, if_false]
      cases hdrop : (c :: tail).dropWhile (fun c ↦ !isBlank c) with
      | nil =>
        rw [hdrop, List.append_nil] at hsplit
        have hwords := words_word hne hword
        rw [hsplit] at hwords
        simp only [hsplit, hwords, List.take_succ_cons, List.take_nil]
      | cons b rest =>
        have hb : isBlank b = true := by
          have h := List.head?_dropWhile_not (fun c ↦ !isBlank c) (c :: tail)
          rw [hdrop] at h
          simpa using h
        rw [hdrop] at hsplit
        have hwords := words_append hne hword hb rest
        rw [hsplit] at hwords
        rw [hwords]
        simp only [ih, List.take_succ_cons]

section Run

variable {σ : Type} {b : Board σ} {behind : ℕ → CStr}

/-- The first word of the line names a command that takes as many words as `parse_line` returns at
most, and that is not a `bootd` out of a `bootd`. -/
def NamesLongCommand (b : Board σ) (flag : ℕ) (line : CStr) : Prop :=
  ∃ word ∈ (words line).head?, ∃ e ∈ findCmd b.table word,
    (cfgMaxargs : ℤ) ≤ e.maxargs ∧ ¬ (e.isBootd = true ∧ flag &&& cmdFlagBootd ≠ 0)

theorem dispatch_eq_none_iff {flag : ℕ} {line : CStr} (h : TooMany line) :
    dispatch b flag line = none ↔ ¬ NamesLongCommand b flag line := by
  have hlen : (parseLine cfgMaxargs line).1.length = cfgMaxargs := by
    rw [parseLine_eq, List.length_take]
    exact Nat.min_eq_left (Nat.le_of_lt h)
  have hhead : (words line).head? = (parseLine cfgMaxargs line).1.head? := by
    rw [parseLine_eq]
    cases words line <;> rfl
  rw [dispatch, NamesLongCommand, hhead]
  generalize parseLine cfgMaxargs line = argv at hlen ⊢
  obtain ⟨argv, null⟩ := argv
  cases argv with
  | nil => simp [cfgMaxargs] at hlen
  | cons word rest =>
    simp only at hlen
    cases hfind : findCmd b.table word with
    | none => simp [hfind]
    | some e =>
      simp only [hlen, List.head?_cons, Option.mem_def, Option.some.injEq, exists_eq_left', hfind]
      split_ifs with hmax hbootd hflag
      · simp [Int.not_le.mpr hmax]
      · simp [hbootd, hflag]
      · simp [hbootd, hflag, Int.not_lt.mp hmax]
      · simp [hbootd, Int.not_lt.mp hmax]

/-- A command function is called exactly when the checks let the line pass. -/
theorem called_eq_none_iff {k : ℕ} {l : Loop σ} {toks : List CStr} :
    ∀ t ∈ (runTokens b behind k l toks).2.2,
      t.called = none ↔ dispatch b t.flag t.line = none := by
  induction toks generalizing k l with
  | nil => simp [runTokens]
  | cons token rest ih =>
    intro t ht
    rw [runTokens] at ht
    generalize hline : finalToken (b.getenv l.board) (behind k) token = line at ht
    cases hd : dispatch b l.flag line with
    | none =>
      simp only [hd, List.mem_cons] at ht
      obtain rfl | ht := ht
      · simp [hd]
      · exact ih t ht
    | some call =>
      simp only [hd] at ht
      split at ht
      · obtain rfl := List.mem_singleton.mp ht
        simp [hd]
      · obtain rfl | ht := List.mem_cons.mp ht
        · simp [hd]
        · exact ih t ht

/-- An error is kept up to the end of the loop; only a stop by the user hides it. -/
theorem result_of_error {k : ℕ} {l : Loop σ} {toks : List CStr} (h : l.rc = -1) :
    (runTokens b behind k l toks).1 = -1 ↔
      ∀ t ∈ (runTokens b behind k l toks).2.2, t.stopped = false := by
  induction toks generalizing k l with
  | nil => simp [runTokens, h]
  | cons token rest ih =>
    rw [runTokens]
    generalize finalToken (b.getenv l.board) (behind k) token = line
    cases dispatch b l.flag line with
    | none =>
      simp only [List.forall_mem_cons, true_and]
      exact ih rfl
    | some call =>
      simp only
      split
      · simp
      · simp only [List.forall_mem_cons, true_and]
        apply ih
        simp [h]

theorem result_of_refused {k : ℕ} {l : Loop σ} {toks : List CStr}
    (h : ∃ t ∈ (runTokens b behind k l toks).2.2, t.called = none) :
    (runTokens b behind k l toks).1 = -1 ↔
      ∀ t ∈ (runTokens b behind k l toks).2.2, t.stopped = false := by
  induction toks generalizing k l with
  | nil => simp [runTokens] at h
  | cons token rest ih =>
    rw [runTokens] at h ⊢
    generalize finalToken (b.getenv l.board) (behind k) token = line at h ⊢
    cases hd : dispatch b l.flag line with
    | none =>
      simp only [List.forall_mem_cons, true_and]
      exact result_of_error rfl
    | some call =>
      simp only [hd] at h ⊢
      split at h
      · simp at h
      · next hstop =>
        rw [if_neg hstop]
        simp only [List.forall_mem_cons, true_and]
        apply ih
        simpa using h

/-- A line with more words than `argv` holds is refused, and `run_command` returns -1, exactly when
its first word does not name a command that takes all the words `argv` holds, and the user stops no
command. -/
theorem run_command_too_many_iff (b : Board σ) (before : UInt8) (behind : ℕ → CStr) (st : σ)
    (cmd : CStr) (flag : ℕ) :
    (∀ t ∈ (runCommand b before behind st (some cmd) flag).2.2, TooMany t.line →
      t.called = none ∧ (runCommand b before behind st (some cmd) flag).1 = -1) ↔
    ∀ t ∈ (runCommand b before behind st (some cmd) flag).2.2, TooMany t.line →
      ¬ NamesLongCommand b t.flag t.line ∧
      ∀ t' ∈ (runCommand b before behind st (some cmd) flag).2.2, t'.stopped = false := by
  rw [runCommand]
  split_ifs with hempty hlong
  · simp
  · simp
  · apply forall₃_congr
    intro t ht hmany
    have hcalled := (called_eq_none_iff t ht).trans (dispatch_eq_none_iff hmany)
    constructor
    · rintro ⟨hnone, hret⟩
      exact ⟨hcalled.mp hnone, (result_of_refused ⟨t, ht, hnone⟩).mp hret⟩
    · rintro ⟨hnames, hstopped⟩
      have hnone := hcalled.mpr hnames
      exact ⟨hnone, (result_of_refused ⟨t, ht, hnone⟩).mpr hstopped⟩

end Run

/-- The table entry of `echo`. -/
def echo : CmdTbl Unit where
  name := ascii "echo"
  maxargs := cfgMaxargs
  repeatable := 1
  isBootd := false
  cmd st _ _ _ := (0, st)

def echoBoard : Board Unit where
  table := [echo]
  getenv _ _ := none
  clearCtrlc st := st
  hadCtrlc _ := false

def sixteenWords : CStr := ascii "echo 1 2 3 4 5 6 7 8 9 a b c d e f g"

/-- `echo` is called with the first fifteen of its sixteen arguments. -/
theorem run_command_too_many_echo :
    ¬ ∀ t ∈ (runCommand echoBoard 0 (fun _ ↦ []) () (some sixteenWords) 0).2.2, TooMany t.line →
      t.called = none ∧
        (runCommand echoBoard 0 (fun _ ↦ []) () (some sixteenWords) 0).1 = -1 := by
  intro h
  have hmany : cfgMaxargs < (words sixteenWords).length := by decide +kernel
  have hret : (runCommand echoBoard 0 (fun _ ↦ []) () (some sixteenWords) 0).1 = 1 := by
    decide +kernel
  have hturn : (runCommand echoBoard 0 (fun _ ↦ []) () (some sixteenWords) 0).2.2.map (·.line) =
      [sixteenWords] := by
    decide +kernel
  obtain ⟨t, ht, hline⟩ : ∃ t ∈ (runCommand echoBoard 0 (fun _ ↦ []) () (some sixteenWords) 0).2.2,
      t.line = sixteenWords := by
    rw [← List.mem_map, hturn]
    exact List.mem_singleton_self _
  have hfalse := (h t ht (hline ▸ hmany)).2
  rw [hret] at hfalse
  cases hfalse

end UBoot.Common.RunCommand
