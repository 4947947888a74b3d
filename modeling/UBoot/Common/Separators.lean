import UBoot.Common.Main

namespace UBoot.Common.Separators

open Lib.CString Main

/-- The positions at which `run_command` cuts the command, for `str` at position `pos` of it. -/
def separatorsFrom : ℕ → UInt8 → ℕ → CStr → List ℕ
  | 0, _, _, _ => []
  | fuel + 1, before, pos, str =>
    if str = [] then []
    else
      let sep := findSep before true false str
      if sep < str.length then
        (pos + sep) :: separatorsFrom fuel 0 (pos + sep + 1) (str.drop (sep + 1))
      else []

/-- `before` is the byte in front of `cmdbuf`. -/
def separators (before : UInt8) (cmd : CStr) : List ℕ := separatorsFrom cmd.length before 0 cmd

/-- The pieces between the given positions of a string that starts at `pos`; nothing follows a
separator at the end. -/
def cut (pos : ℕ) : List ℕ → CStr → List CStr
  | [], str => if str = [] then [] else [str]
  | sep :: seps, str => str.take (sep - pos) :: cut (sep + 1) seps (str.drop (sep - pos + 1))

theorem findSep_le (before : UInt8) (atStart inquotes : Bool) (str : CStr) :
    findSep before atStart inquotes str ≤ str.length := by
  induction str generalizing before atStart inquotes with
  | nil => exact Nat.le_refl 0
  | cons c cs ih =>
    rw [findSep]
    split_ifs
    · exact Nat.zero_le _
    · exact Nat.succ_le_succ (ih _ _ _)

theorem tokens_eq_cut (fuel : ℕ) (before : UInt8) (pos : ℕ) (str : CStr) (h : str.length ≤ fuel) :
    tokens fuel before str = cut pos (separatorsFrom fuel before pos str) str := by
  induction fuel generalizing before pos str with
  | zero =>
    obtain rfl := List.length_eq_zero_iff.mp (Nat.le_zero.mp h)
    rfl
  | succ fuel ih =>
    rw [tokens, separatorsFrom]
    split_ifs with hnil
    · rw [cut, if_pos hnil]
    · have hpos := List.length_pos_of_ne_nil hnil
      simp only
      split_ifs with hsep
      · rw [cut, Nat.add_sub_cancel_left, ih]
        rw [List.length_drop]
        omega
      · have hlen := findSep_le before true false str
        rw [cut, if_neg hnil, List.take_of_length_le (by omega), List.drop_of_length_le (by omega)]
        cases fuel <;> rfl

/-- One byte of `process_macros`: `state` and `prev` behind it. -/
def scanStep (s : MacroState × UInt8) (c : UInt8) : MacroState × UInt8 :=
  if Escapes s.1 s.2 c then (s.1, c) else (s.1.next s.2 c, c)

/-- `state` and `prev` of `process_macros` behind a text. -/
def scan (text : CStr) : MacroState × UInt8 := text.foldl scanStep (.text, 0)

/-- Whatever the variables hold, `process_macros` is in the state `scan` gives, unless it stops
because its output is full. -/
theorem macroLoop_scan (getenv : CStr → Option CStr) (m : Macros) (input : CStr)
    (h : (macroLoop getenv m input).out.length < cfgCbsize) :
    ((macroLoop getenv m input).state, (macroLoop getenv m input).prev) =
      input.foldl scanStep (m.state, m.prev) := by
  induction input generalizing m with
  | nil => rfl
  | cons c input ih =>
    rw [macroLoop] at h ⊢
    split_ifs at h ⊢ with hfull hescape
    · omega
    · rw [ih _ h, List.foldl_cons, scanStep, if_pos hescape]
    · rw [ih _ h, List.foldl_cons, scanStep, if_neg hescape]
      rfl

/-- Outside single quotes and not behind a backslash. -/
def Plain (s : MacroState × UInt8) : Prop := s.1 ≠ .quoted ∧ s.2 ≠ backslash

instance (s : MacroState × UInt8) : Decidable (Plain s) := inferInstanceAs (Decidable (_ ∧ _))

/-- An unescaped quote that `process_macros` does not take for one: it stands behind a `$` or in the
name of a variable. -/
def StrayQuote (cmd : CStr) (j : ℕ) : Prop :=
  cmd[j]? = some quote ∧ Plain (scan (cmd.take j)) ∧ (scan (cmd.take j)).1 ≠ .text

instance (cmd : CStr) (j : ℕ) : Decidable (StrayQuote cmd j) :=
  inferInstanceAs (Decidable (_ ∧ _ ∧ _))

section Scan

/-- Is the byte at position `i` a separator? -/
def separates (before : UInt8) (atStart inquotes : Bool) : CStr → ℕ → Prop
  | [], _ => False
  | c :: _, 0 => IsSep before atStart (toggle before c inquotes) c
  | c :: cs, i + 1 =>
    if IsSep before atStart (toggle before c inquotes) c then separates 0 true false cs i
    else separates c false (toggle before c inquotes) cs i

theorem not_separates_of_lt {before : UInt8} {atStart inquotes : Bool} {str : CStr} {i : ℕ}
    (h : i < findSep before atStart inquotes str) : ¬ separates before atStart inquotes str i := by
  induction str generalizing before atStart inquotes i with
  | nil => exact id
  | cons c cs ih =>
    rw [findSep] at h
    split_ifs at h with hsep
    · omega
    · cases i with
      | zero => exact hsep
      | succ i =>
        rw [separates, if_neg hsep]
        exact ih (Nat.lt_of_succ_lt_succ h)

theorem separates_findSep {before : UInt8} {atStart inquotes : Bool} {str : CStr}
    (h : findSep before atStart inquotes str < str.length) :
    separates before atStart inquotes str (findSep before atStart inquotes str) := by
  induction str generalizing before atStart inquotes with
  | nil => cases h
  | cons c cs ih =>
    rw [findSep] at h ⊢
    split_ifs at h ⊢ with hsep
    · exact hsep
    · rw [separates, if_neg hsep]
      exact ih (Nat.lt_of_succ_lt_succ h)

theorem separates_behind {before : UInt8} {atStart inquotes : Bool} {str : CStr} (i : ℕ) :
    separates before atStart inquotes str (findSep before atStart inquotes str + 1 + i) ↔
      separates 0 true false (str.drop (findSep before atStart inquotes str + 1)) i := by
  induction str generalizing before atStart inquotes with
  | nil => rfl
  | cons c cs ih =>
    rw [findSep]
    split_ifs with hsep
    · rw [Nat.zero_add, Nat.add_comm 1 i, separates, if_pos hsep]
      rfl
    · rw [Nat.add_right_comm, separates, if_neg hsep]
      exact ih

theorem not_separates_of_le {before : UInt8} {atStart inquotes : Bool} {str : CStr} {i : ℕ}
    (h : str.length ≤ i) : ¬ separates before atStart inquotes str i := by
  induction str generalizing before atStart inquotes i with
  | nil => exact id
  | cons c cs ih =>
    cases i with
    | zero => cases h
    | succ i =>
      rw [separates]
      split_ifs
      · exact ih (Nat.le_of_succ_le_succ h)
      · exact ih (Nat.le_of_succ_le_succ h)

theorem mem_separatorsFrom (fuel : ℕ) (before : UInt8) (pos : ℕ) (str : CStr)
    (h : str.length ≤ fuel) (i : ℕ) :
    i ∈ separatorsFrom fuel before pos str ↔
      pos ≤ i ∧ separates before true false str (i - pos) := by
  induction fuel generalizing before pos str i with
  | zero =>
    obtain rfl := List.length_eq_zero_iff.mp (Nat.le_zero.mp h)
    simp [separatorsFrom, separates]
  | succ fuel ih =>
    rw [separatorsFrom]
    split_ifs with hnil
    · subst hnil
      simp [separates]
    have hle := findSep_le before true false str
    have hpos := List.length_pos_of_ne_nil hnil
    -- in front of the first separator, at it, and behind it
    obtain hlt | heq | ⟨k, hk⟩ :
        i < pos + findSep before true false str ∨ i = pos + findSep before true false str ∨
          ∃ k, i = pos + (findSep before true false str + 1 + k) := by
      rcases Nat.lt_trichotomy i (pos + findSep before true false str) with hlt | heq | hgt
      · exact Or.inl hlt
      · exact Or.inr (Or.inl heq)
      · exact Or.inr (Or.inr ⟨i - (pos + findSep before true false str + 1), by omega⟩)
    · have hright : ¬ (pos ≤ i ∧ separates before true false str (i - pos)) := by
        rintro ⟨hpos', hs⟩
        exact not_separates_of_lt (by omega) hs
      simp only [hright, iff_false]
      split_ifs with hsep
      · rw [List.mem_cons, ih]
        · omega
        · rw [List.length_drop]
          omega
      · exact List.not_mem_nil
    · subst heq
      simp only [Nat.le_add_right, Nat.add_sub_cancel_left, true_and]
      split_ifs with hsep
      · simp [separates_findSep hsep]
      · simp [not_separates_of_le (Nat.not_lt.mp hsep)]
    · subst hk
      simp only [Nat.le_add_right, Nat.add_sub_cancel_left, true_and, separates_behind]
      split_ifs with hsep
      · rw [List.mem_cons, ih]
        · rw [show pos + (findSep before true false str + 1 + k) -
            (pos + findSep before true false str + 1) = k by omega]
          constructor
          · rintro (h' | ⟨-, h'⟩)
            · omega
            · exact h'
          · intro h'
            exact Or.inr ⟨by omega, h'⟩
        · rw [List.length_drop]
          omega
      · rw [List.drop_of_length_le (by omega)]
        simp [separates]

theorem mem_separators (before : UInt8) (cmd : CStr) (i : ℕ) :
    i ∈ separators before cmd ↔ separates before true false cmd i := by
  simp [separators, mem_separatorsFrom]

/-- The byte in front of the buffer is looked at for a quote only. -/
theorem findSep_before {b b' : UInt8} {cmd : CStr}
    (h : cmd.head? = some quote → b ≠ backslash ∧ b' ≠ backslash) :
    findSep b true false cmd = findSep b' true false cmd := by
  cases cmd with
  | nil => rfl
  | cons c cs =>
    have htoggle : toggle b c false = toggle b' c false := by
      by_cases hc : c = quote
      · obtain ⟨hb, hb'⟩ := h (congrArg some hc)
        simp [toggle, hb, hb']
      · simp [toggle, hc]
    have hstart (x : UInt8) (q : Bool) : ¬ IsSep x true q c := by
      simp [IsSep]
    rw [findSep, findSep, if_neg (hstart _ _), if_neg (hstart _ _), htoggle]

theorem tokens_before {b b' : UInt8} {cmd : CStr}
    (h : cmd.head? = some quote → b ≠ backslash ∧ b' ≠ backslash) (fuel : ℕ) :
    tokens fuel b cmd = tokens fuel b' cmd := by
  cases fuel with
  | zero => rfl
  | succ fuel => rw [tokens, tokens, findSep_before h]

theorem separators_before (b b' : UInt8) {cmd : CStr}
    (h : cmd.head? = some quote → b ≠ backslash ∧ b' ≠ backslash) :
    separators b cmd = separators b' cmd := by
  rw [separators, separators]
  cases cmd.length with
  | zero => rfl
  | succ fuel => rw [separatorsFrom, separatorsFrom, findSep_before h]

/-- Both scanners are in quotes, or none is, and they see a backslash in front at the same time. -/
structure Agree (before : UInt8) (inquotes : Bool) (s : MacroState × UInt8) : Prop where
  quotes : inquotes = true ↔ s.1 = .quoted
  escape : before = backslash ↔ s.2 = backslash

theorem next_eq_quoted_iff {state : MacroState} {prev c : UInt8} (hc : c ≠ quote) :
    state.next prev c = .quoted ↔ state = .quoted := by
  cases state <;> simp only [MacroState.next, hc, false_and, if_false] <;> split_ifs <;> simp

/-- One byte keeps the scanners together, unless it is a quote that only one of them takes for
one. -/
theorem Agree.step {before c : UInt8} {inquotes : Bool} {s : MacroState × UInt8}
    (h : Agree before inquotes s) (hstray : ¬ (c = quote ∧ Plain s ∧ s.1 ≠ .text)) :
    Agree c (toggle before c inquotes) (scanStep s c) := by
  obtain ⟨state, prev⟩ := s
  have hq : inquotes = decide (state = .quoted) := by
    rw [Bool.eq_iff_iff, decide_eq_true_iff]
    exact h.quotes
  have he : before ≠ backslash ↔ prev ≠ backslash := not_congr h.escape
  have hbs : quote ≠ backslash := by decide
  refine ⟨?_, by simp [scanStep, apply_ite]⟩
  by_cases hc : c = quote
  · subst hc
    have hnot : ¬ Escapes state prev quote := fun hesc ↦ hbs hesc.2.1
    rw [scanStep, if_neg hnot, toggle]
    by_cases hp : prev = backslash
    · cases state <;> simp [MacroState.next, hq, he, hp, quote, Main.dollar, isOpening, isClosing]
    · cases state <;> simp_all [MacroState.next, Plain]
  · have htoggle : toggle before c inquotes = inquotes := if_neg fun hand ↦ hc hand.1
    rw [htoggle, hq, decide_eq_true_iff, scanStep]
    split_ifs
    · rfl
    · exact (next_eq_quoted_iff hc).symm

theorem toggle_semicolon (before : UInt8) (inquotes : Bool) :
    toggle before semicolon inquotes = inquotes := if_neg fun h ↦ absurd h.1 (by decide)

theorem Agree.restart {before c : UInt8} {atStart inquotes : Bool} {s : MacroState × UInt8}
    (h : Agree before inquotes s) (hsep : IsSep before atStart (toggle before c inquotes) c) :
    Agree 0 false (scanStep s c) := by
  obtain ⟨hquotes, rfl, -, -⟩ := hsep
  rw [toggle_semicolon] at hquotes
  have hne : semicolon ≠ quote := by decide
  have hstep := h.step (c := semicolon) fun hstray ↦ hne hstray.1
  rw [toggle_semicolon, hquotes] at hstep
  refine ⟨hstep.quotes, iff_of_false (by decide) fun hs ↦ ?_⟩
  exact absurd (hstep.escape.mpr hs) (by decide)

theorem Agree.separates_iff {before : UInt8} {atStart inquotes : Bool} {s : MacroState × UInt8}
    {cs : CStr} {i : ℕ} (h : Agree before inquotes s) (hsemi : cs[i]? = some semicolon)
    (hstray : ∀ j < i, ¬ (cs[j]? = some quote ∧ Plain ((cs.take j).foldl scanStep s) ∧
      ((cs.take j).foldl scanStep s).1 ≠ .text)) :
    separates before atStart inquotes cs i ↔
      (if i = 0 then atStart = false else ¬ separates before atStart inquotes cs (i - 1)) ∧
        Plain ((cs.take i).foldl scanStep s) := by
  induction cs generalizing before atStart inquotes s i with
  | nil => simp at hsemi
  | cons c cs ih =>
    cases i with
    | zero =>
      obtain rfl : c = semicolon := by simpa using hsemi
      have hq : inquotes = false ↔ s.1 ≠ .quoted := by
        rw [← Bool.not_eq_true]
        exact not_congr h.quotes
      simp only [separates, toggle_semicolon, IsSep, hq, ne_eq, h.escape, true_and, if_true,
        List.take_zero, List.foldl_nil, Plain]
      tauto
    | succ i =>
      have hsemi' : cs[i]? = some semicolon := by simpa using hsemi
      have hstray' : ∀ j < i, ¬ (cs[j]? = some quote ∧
          Plain ((cs.take j).foldl scanStep (scanStep s c)) ∧
          ((cs.take j).foldl scanStep (scanStep s c)).1 ≠ .text) := by
        intro j hj
        simpa using hstray (j + 1) (Nat.succ_lt_succ hj)
      have hfirst : ¬ (c = quote ∧ Plain s ∧ s.1 ≠ .text) := by
        simpa using hstray 0 (Nat.succ_pos i)
      have hprev : ∀ {b : UInt8} {a q : Bool},
          (i = 0 → (a = false ↔ ¬ IsSep before atStart (toggle before c inquotes) c)) →
          (∀ k, separates before atStart inquotes (c :: cs) (k + 1) ↔ separates b a q cs k) →
          ((if i = 0 then a = false else ¬ separates b a q cs (i - 1)) ↔
            ¬ separates before atStart inquotes (c :: cs) i) := by
        intro b a q hzero hsucc
        cases i with
        | zero => exact hzero rfl
        | succ k => exact not_congr (hsucc k).symm
      simp only [Nat.succ_ne_zero, if_false, Nat.add_sub_cancel, List.take_succ_cons,
        List.foldl_cons]
      by_cases hsep : IsSep before atStart (toggle before c inquotes) c
      · rw [separates, if_pos hsep, ih (h.restart hsep) hsemi' hstray',
          hprev (fun _ ↦ by simp [hsep]) fun k ↦ by rw [separates, if_pos hsep]]
      · rw [separates, if_neg hsep, ih (h.step hfirst) hsemi' hstray',
          hprev (fun _ ↦ by simp [hsep]) fun k ↦ by rw [separates, if_neg hsep]]

end Scan

/-- The claim of the two scanners: the separators are the semicolons that `process_macros` sees
outside quotes and not behind a backslash, and the tokens do not depend on the byte in front of the
buffer. -/
def QuotingAgrees (cmd : CStr) : Prop :=
  (∀ before i, cmd[i]? = some semicolon →
    (i ∈ separators before cmd ↔ Plain (scan (cmd.take i)))) ∧
  ∀ before before', tokens cmd.length before cmd = tokens cmd.length before' cmd

/-- The scanners agree on the semicolons that do not start a token, as long as no quote stands behind
a `$` or in the name of a variable, and the stack matters to a quote at the start only. -/
theorem separators_agree (cmd : CStr) :
    (∀ before i, (cmd.head? = some quote → before ≠ backslash) → cmd[i]? = some semicolon →
      (∀ j < i, ¬ StrayQuote cmd j) →
      (i ∈ separators before cmd ↔
        (i ≠ 0 ∧ i - 1 ∉ separators before cmd) ∧ Plain (scan (cmd.take i)))) ∧
    (cmd.head? ≠ some quote →
      ∀ before before', tokens cmd.length before cmd = tokens cmd.length before' cmd) := by
  constructor
  · intro before i hbefore hsemi hstray
    rw [separators_before before 0 fun hhead ↦ ⟨hbefore hhead, by decide⟩]
    have hstart : Agree 0 false (.text, 0) := ⟨by simp, Iff.rfl⟩
    rw [mem_separators, mem_separators, hstart.separates_iff hsemi hstray, scan]
    split_ifs with hi
    · simp [hi]
    · simp [hi]
  · intro hhead before before'
    exact tokens_before (fun h ↦ absurd h hhead) _

/-- Two commands, and a quoted semicolon. -/
theorem separators_agree_two :
    3 ∈ separators 0 (ascii "a b;c ';'") ∧ 7 ∉ separators 0 (ascii "a b;c ';'") := by
  obtain ⟨hsep, -⟩ := separators_agree (ascii "a b;c ';'")
  constructor
  · apply (hsep 0 3 (by decide) rfl (by decide)).mpr
    decide
  · intro h
    have hplain := ((hsep 0 7 (by decide) rfl (by decide)).mp h).2
    revert hplain
    decide

/-- An empty command is no token of its own, and a backslash in front of the buffer escapes a
quote. -/
theorem quoting_disagrees :
    ¬ QuotingAgrees (ascii "a;;b") ∧ ¬ QuotingAgrees (ascii "';a") := by
  constructor
  · intro h
    have hplain := (h.1 0 2 rfl).mpr (by decide)
    revert hplain
    decide
  · intro h
    have heq := h.2 0 backslash
    revert heq
    decide

end UBoot.Common.Separators
