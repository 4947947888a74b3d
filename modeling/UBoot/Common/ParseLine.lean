import UBoot.Common.RunCommand

namespace UBoot.Common.ParseLine

open Lib.CString Main RunCommand

/-- `while (p (*line)) ++line;` from the index `i` on; a read behind the object is `none`. -/
def scan (p : UInt8 → Bool) : List UInt8 → ℕ → Option ℕ
  | [], _ => none
  | c :: cs, i => if p c then scan p cs (i + 1) else some i

/-- The loop of `parse_line` with room for `room` more words, at the index `i` of the object `d` that
holds the line. `argv` has an index of `d` for a pointer and `none` for `NULL`. -/
def parseLineLoop : ℕ → ℕ → ℕ → List (Option ℕ) → List UInt8 → Option (ℕ × List (Option ℕ) × List UInt8)
  | 0, nargs, _, argv, d => some (nargs, argv, d)
  | room + 1, nargs, i, argv, d => do
    let i ← scan isBlank (d.drop i) i
    if d[i]? = some 0 then return (nargs, argv.set nargs none, d)
    let argv := argv.set nargs (some i)
    let j ← scan (fun c ↦ c != 0 && !isBlank c) (d.drop i) i
    if d[j]? = some 0 then return (nargs + 1, argv.set (nargs + 1) none, d)
    parseLineLoop room (nargs + 1) (j + 1) argv (d.set j 0)

/-- `parse_line(line, argv)`: its result, the array and the object after it. -/
def parseLineAt (d : List UInt8) (argv : List (Option ℕ)) : Option (ℕ × List (Option ℕ) × List UInt8) :=
  parseLineLoop cfgMaxargs 0 0 argv d

/-- The contract of `parse_line`: the first words as strings, and `NULL` behind them. -/
def Splits (line b : List UInt8) (argv : List (Option ℕ)) : Prop :=
  ∃ argv' d', parseLineAt (line ++ 0 :: b) argv =
      some (min (words line).length cfgMaxargs, argv', d') ∧
    (∀ (k : ℕ) (word : CStr), ((words line).take cfgMaxargs)[k]? = some word → ∃ i, argv'[k]? = some (some i) ∧
      load (d'.drop i) = some word) ∧
    argv'[min (words line).length cfgMaxargs]? = some none

/-- `argv` gets its `NULL`: there are fewer words than it has room for, or as many and nothing behind
the last one. -/
def Terminated (line : CStr) : Prop :=
  (words line).length < cfgMaxargs ∨
    (words line).length = cfgMaxargs ∧ ∀ c ∈ line.getLast?, isBlank c = false

/-- A line is blank, or it has a first word that ends it, or a blank behind its first word. -/
theorem line_cases (line : CStr) : (∀ c ∈ line, isBlank c = true) ∨
    ∃ gap word tail, line = gap ++ (word ++ tail) ∧ (∀ c ∈ gap, isBlank c = true) ∧ word ≠ [] ∧
      (∀ c ∈ word, isBlank c = false) ∧
      (tail = [] ∨ ∃ c rest, tail = c :: rest ∧ isBlank c = true) := by
  have hline := List.takeWhile_append_dropWhile (p := isBlank) (l := line)
  have hgap : ∀ c ∈ line.takeWhile isBlank, isBlank c = true :=
    fun c hc ↦ List.mem_takeWhile_imp hc
  have hhead := List.head?_dropWhile_not isBlank line
  generalize line.dropWhile isBlank = rest at hline hhead
  by_cases hrest : rest = []
  · rw [hrest, List.append_nil] at hline
    exact .inl (hline ▸ hgap)
  · obtain ⟨c, cs, rfl⟩ := List.exists_cons_of_ne_nil hrest
    have hc : isBlank c = false := by simpa using hhead
    have hsplit := List.takeWhile_append_dropWhile (p := fun c ↦ !isBlank c) (l := c :: cs)
    have htail := List.head?_dropWhile_not (fun c ↦ !isBlank c) (c :: cs)
    refine .inr ⟨_, (c :: cs).takeWhile fun c ↦ !isBlank c, (c :: cs).dropWhile fun c ↦ !isBlank c,
      ?_, hgap, ?_, ?_, ?_⟩
    · rw [hsplit, hline]
    · simp [hc]
    · intro x hx
      simpa using List.mem_takeWhile_imp hx
    · generalize (c :: cs).dropWhile (fun c ↦ !isBlank c) = tail at htail
      cases tail with
      | nil => exact .inl rfl
      | cons x tail => exact .inr ⟨x, tail, rfl, by simpa using htail⟩

section Line

variable {gap word tail : CStr} (hgap : ∀ c ∈ gap, isBlank c = true) (hne : word ≠ [])
variable (hword : ∀ c ∈ word, isBlank c = false)

theorem parseLine_blank {line : CStr} (h : ∀ c ∈ line, isBlank c = true) (n : ℕ) :
    parseLine (n + 1) line = ([], true) := by
  rw [parseLine, List.dropWhile_eq_nil_iff.mpr h]
  rfl

include hgap

theorem words_gap (line : CStr) : words (gap ++ line) = words line := by
  induction gap with
  | nil => rfl
  | cons c gap ih =>
    rw [List.cons_append, words_blank (hgap c List.mem_cons_self)]
    exact ih fun x hx ↦ hgap x (List.mem_cons_of_mem c hx)

include hne hword

theorem dropWhile_gap : (gap ++ (word ++ tail)).dropWhile isBlank = word ++ tail := by
  obtain ⟨c, cs, rfl⟩ := List.exists_cons_of_ne_nil hne
  rw [List.dropWhile_append_of_pos hgap, List.cons_append,
    List.dropWhile_cons_of_neg (by simp [hword c List.mem_cons_self])]

theorem parseLine_last (n : ℕ) : parseLine (n + 1) (gap ++ word) = ([word], true) := by
  have hdrop : (gap ++ (word ++ [])).dropWhile isBlank = word ++ [] := dropWhile_gap hgap hne hword
  have hall : ∀ c ∈ word, (!isBlank c) = true := fun c hc ↦ by rw [hword c hc]; rfl
  rw [List.append_nil] at hdrop
  simp only [parseLine, hdrop, if_neg hne, List.dropWhile_eq_nil_iff.mpr hall,
    List.takeWhile_eq_self_iff.mpr hall]

theorem parseLine_cons {c : UInt8} (hc : isBlank c = true) (rest : CStr) (n : ℕ) :
    parseLine (n + 1) (gap ++ (word ++ c :: rest)) =
      (word :: (parseLine n rest).1, (parseLine n rest).2) := by
  have hdrop : (gap ++ (word ++ c :: rest)).dropWhile isBlank = word ++ c :: rest :=
    dropWhile_gap hgap hne hword
  have hall : ∀ c ∈ word, (!isBlank c) = true := fun c hc ↦ by rw [hword c hc]; rfl
  have htake : (word ++ c :: rest).takeWhile (fun c ↦ !isBlank c) = word := by
    simp [List.takeWhile_append_of_pos hall, hc]
  have hbehind : (word ++ c :: rest).dropWhile (fun c ↦ !isBlank c) = c :: rest := by
    simp [List.dropWhile_append_of_pos hall, hc]
  simp only [parseLine, hdrop, if_neg (List.append_ne_nil_of_left_ne_nil hne (c :: rest)), htake,
    hbehind]

end Line

theorem blank_of_words {line : CStr} (h : words line = []) : ∀ c ∈ line, isBlank c = true := by
  rcases line_cases line with hblank | ⟨gap, word, tail, rfl, hgap, hne, hword, hend⟩
  · exact hblank
  · rw [words_gap hgap] at h
    rcases hend with rfl | ⟨c, rest, rfl, hc⟩
    · rw [List.append_nil, words_word hne hword] at h
      cases h
    · rw [words_append hne hword hc] at h
      cases h

theorem parseLine_null_iff (n : ℕ) (line : CStr) : (parseLine n line).2 = true ↔
    (words line).length < n ∨
      (words line).length = n ∧ 0 < n ∧ ∀ c ∈ line.getLast?, isBlank c = false := by
  induction n generalizing line with
  | zero => simp [parseLine]
  | succ n ih =>
    rcases line_cases line with hblank | ⟨gap, word, tail, rfl, hgap, hne, hword, hend⟩
    · have hwords : words line = [] := by
        have h := words_gap hblank []
        rwa [List.append_nil, words_nil] at h
      rw [parseLine_blank hblank, hwords]
      exact iff_of_true rfl (.inl (Nat.succ_pos n))
    · rcases hend with rfl | ⟨c, rest, rfl, hc⟩
      · rw [List.append_nil, parseLine_last hgap hne hword, words_gap hgap, words_word hne hword]
        refine iff_of_true rfl ?_
        rcases Nat.eq_zero_or_pos n with rfl | hpos
        · refine .inr ⟨rfl, Nat.one_pos, ?_⟩
          intro x hx
          rw [List.getLast?_append_of_ne_nil _ hne] at hx
          exact hword x (List.mem_of_getLast? hx)
        · exact .inl (by rw [List.length_singleton]; omega)
      · rw [parseLine_cons hgap hne hword hc, words_gap hgap, words_append hne hword hc,
          List.length_cons, ih]
        have hlast : (gap ++ (word ++ c :: rest)).getLast? = (c :: rest).getLast? := by
          rw [← List.append_assoc, List.getLast?_append_of_ne_nil _ (List.cons_ne_nil c rest)]
        rw [hlast]
        rcases Nat.eq_zero_or_pos (words rest).length with hzero | hpos
        · -- nothing but blanks behind the word
          have hblank := blank_of_words (List.length_eq_zero_iff.mp hzero)
          have hends : ¬ ∀ x ∈ (c :: rest).getLast?, isBlank x = false := by
            intro h
            have hmem := List.getLast_mem (List.cons_ne_nil c rest)
            have hlast' := h _ (List.getLast?_eq_some_getLast (List.cons_ne_nil c rest))
            rcases List.mem_cons.mp hmem with heq | hmem
            · rw [heq, hc] at hlast'
              cases hlast'
            · rw [hblank _ hmem] at hlast'
              cases hlast'
          simp only [hends, and_false, or_false, hzero]
          omega
        · have hne' : rest ≠ [] := by
            rintro rfl
            rw [words_nil] at hpos
            exact absurd hpos (Nat.lt_irrefl 0)
          have hsame : (c :: rest).getLast? = rest.getLast? := by
            rw [← List.singleton_append, List.getLast?_append_of_ne_nil _ hne']
          rw [hsame]
          constructor
          · rintro (hlt | ⟨heq, -, hend⟩)
            · exact .inl (by omega)
            · exact .inr ⟨by omega, Nat.succ_pos n, hend⟩
          · rintro (hlt | ⟨heq, -, hend⟩)
            · exact .inl (by omega)
            · exact .inr ⟨by omega, by omega, hend⟩

theorem scan_append {p : UInt8 → Bool} {xs : List UInt8} (h : ∀ c ∈ xs, p c = true) {y : UInt8}
    (hy : p y = false) (ys : List UInt8) (i : ℕ) : scan p (xs ++ y :: ys) i = some (i + xs.length) := by
  induction xs generalizing i with
  | nil => simp [scan, hy]
  | cons c xs ih =>
    rw [List.cons_append, scan, if_pos (h c List.mem_cons_self),
      ih (fun x hx ↦ h x (List.mem_cons_of_mem c hx)), List.length_cons]
    congr 1
    omega

theorem parseLineLoop_word {gap word : CStr} (hgap : ∀ c ∈ gap, isBlank c = true) (hne : word ≠ [])
    (hword : ∀ c ∈ word, isBlank c = false) (hnul : NulFree word) {y : UInt8}
    (hy : y = 0 ∨ isBlank y = true) (room nargs : ℕ) (argv : List (Option ℕ)) (a ys : List UInt8) :
    parseLineLoop (room + 1) nargs a.length argv (a ++ (gap ++ (word ++ y :: ys))) =
      if y = 0 then some (nargs + 1, (argv.set nargs (some (a.length + gap.length))).set (nargs + 1) none,
        a ++ (gap ++ (word ++ y :: ys)))
      else parseLineLoop room (nargs + 1) (a ++ (gap ++ (word ++ [0]))).length
        (argv.set nargs (some (a.length + gap.length))) (a ++ (gap ++ (word ++ [0])) ++ ys) := by
  obtain ⟨c, cs, hcons⟩ := List.exists_cons_of_ne_nil hne
  have hc : isBlank c = false := hword c (hcons ▸ List.mem_cons_self)
  have hskip : scan isBlank ((a ++ (gap ++ (word ++ y :: ys))).drop a.length) a.length =
      some (a.length + gap.length) := by
    rw [List.drop_left, hcons, List.cons_append]
    exact scan_append hgap hc _ _
  have hd : a ++ (gap ++ (word ++ y :: ys)) = (a ++ gap) ++ (word ++ y :: ys) :=
    (List.append_assoc _ _ _).symm
  have hfirst : (a ++ (gap ++ (word ++ y :: ys)))[a.length + gap.length]? = some c := by
    rw [hd, hcons, ← List.length_append, List.cons_append, peek_append]
  have hin : ∀ x ∈ word, (x != 0 && !isBlank x) = true := by
    intro x hx
    simp [hnul x hx, hword x hx]
  have hout : (y != 0 && !isBlank y) = false := by
    rcases hy with rfl | hy
    · rfl
    · simp [hy]
  have hend : scan (fun c ↦ c != 0 && !isBlank c)
      ((a ++ (gap ++ (word ++ y :: ys))).drop (a.length + gap.length)) (a.length + gap.length) =
        some (a.length + gap.length + word.length) := by
    rw [hd, ← List.length_append, List.drop_left]
    exact scan_append hin hout ys _
  have hd' : a ++ (gap ++ (word ++ y :: ys)) = ((a ++ gap) ++ word) ++ y :: ys := by
    rw [hd, ← List.append_assoc]
  have hlast : (a ++ (gap ++ (word ++ y :: ys)))[a.length + gap.length + word.length]? = some y := by
    rw [hd', ← List.length_append, ← List.length_append, peek_append]
  have hset : (a ++ (gap ++ (word ++ y :: ys))).set (a.length + gap.length + word.length) 0 =
      a ++ (gap ++ (word ++ [0])) ++ ys := by
    rw [hd', ← List.length_append, ← List.length_append, List.set_append_right _ _ (Nat.le_refl _),
      Nat.sub_self]
    simp
  have hc0 : c ≠ 0 := hnul c (hcons ▸ List.mem_cons_self)
  have hnext : a.length + gap.length + word.length + 1 = (a ++ (gap ++ (word ++ [0]))).length := by
    simp only [List.length_append, List.length_singleton]
    omega
  rw [parseLineLoop]
  simp only [hskip, hfirst, hend, hlast, hset, hnext, Option.bind_eq_bind, Option.bind_some,
    Option.some.injEq, if_neg hc0]
  split_ifs
  · rfl
  · rfl

theorem parseLineLoop_blank {gap : CStr} (hgap : ∀ c ∈ gap, isBlank c = true) (room nargs : ℕ)
    (argv : List (Option ℕ)) (a b : List UInt8) :
    parseLineLoop (room + 1) nargs a.length argv (a ++ (gap ++ 0 :: b)) =
      some (nargs, argv.set nargs none, a ++ (gap ++ 0 :: b)) := by
  have hskip : scan isBlank ((a ++ (gap ++ 0 :: b)).drop a.length) a.length =
      some (a.length + gap.length) := by
    rw [List.drop_left]
    exact scan_append hgap rfl b _
  have hend : (a ++ (gap ++ 0 :: b))[a.length + gap.length]? = some 0 := by
    rw [← List.append_assoc, ← List.length_append, peek_append]
  rw [parseLineLoop]
  simp only [hskip, hend, Option.bind_eq_bind, Option.bind_some, if_true]
  rfl

/-- The loop in memory gives the words of `parseLine` as strings behind `a`, and `NULL` where that has
it. -/
theorem parseLineLoop_spec (room : ℕ) {line : CStr} (hline : NulFree line) (a b : List UInt8)
    (argv : List (Option ℕ)) (nargs : ℕ) (hroom : nargs + room < argv.length) :
    ∃ argv' t, parseLineLoop room nargs a.length argv (a ++ (line ++ 0 :: b)) =
        some (nargs + (parseLine room line).1.length, argv', a ++ t) ∧
      (∀ k < nargs, argv'[k]? = argv[k]?) ∧
      (∀ (k : ℕ) (word : CStr), (parseLine room line).1[k]? = some word →
        ∃ i, argv'[nargs + k]? = some (some (a.length + i)) ∧ load (t.drop i) = some word) ∧
      argv'[nargs + (parseLine room line).1.length]? =
        if (parseLine room line).2 then some none
        else argv[nargs + (parseLine room line).1.length]? := by
  induction room generalizing line a argv nargs with
  | zero => exact ⟨argv, line ++ 0 :: b, rfl, fun _ _ ↦ rfl, nofun, rfl⟩
  | succ room ih =>
    rcases line_cases line with hblank | ⟨gap, word, tail, rfl, hgap, hne, hword, hend⟩
    · rw [parseLine_blank hblank, parseLineLoop_blank hblank]
      refine ⟨_, _, rfl, ?_, nofun, ?_⟩
      · intro k hk
        rw [List.getElem?_set_ne (by omega)]
      · exact List.getElem?_set_self (by omega)
    · have hnul : NulFree word := fun c hc ↦ hline c (by simp [hc])
      rcases hend with rfl | ⟨c, rest, rfl, hc⟩
      · rw [List.append_nil, parseLine_last hgap hne hword, List.append_assoc,
          parseLineLoop_word hgap hne hword hnul (.inl rfl), if_pos rfl]
        refine ⟨_, _, rfl, ?_, ?_, ?_⟩
        · intro k hk
          rw [List.getElem?_set_ne (by omega), List.getElem?_set_ne (by omega)]
        · intro k w hk
          obtain ⟨rfl, rfl⟩ : k = 0 ∧ word = w := by
            cases k with
            | zero => exact ⟨rfl, Option.some.inj hk⟩
            | succ k => cases hk
          refine ⟨gap.length, ?_, ?_⟩
          · rw [List.getElem?_set_ne (by omega)]
            exact List.getElem?_set_self (by omega)
          · rw [List.drop_left]
            exact load_append word b hnul
        · exact List.getElem?_set_self (by rw [List.length_set]; omega)
      · have hc0 : c ≠ 0 := hline c (by simp)
        have hrest : NulFree rest := fun x hx ↦ hline x (by simp [hx])
        obtain ⟨argv', t, hrun, hbefore, hwords, hnull⟩ := ih hrest (a ++ (gap ++ (word ++ [0])))
          (argv.set nargs (some (a.length + gap.length))) (nargs + 1) (by rw [List.length_set]; omega)
        have hd : a ++ (gap ++ (word ++ c :: rest) ++ 0 :: b) =
            a ++ (gap ++ (word ++ c :: (rest ++ 0 :: b))) := by simp
        have hlen : ∀ l : List CStr, nargs + (word :: l).length = nargs + 1 + l.length := by
          intro l
          rw [List.length_cons]
          omega
        rw [parseLine_cons hgap hne hword hc, hd, parseLineLoop_word hgap hne hword hnul (.inr hc),
          if_neg hc0, hrun, hlen]
        refine ⟨argv', gap ++ (word ++ 0 :: t), ?_, ?_, ?_, ?_⟩
        · simp
        · intro k hk
          rw [hbefore k (by omega), List.getElem?_set_ne (by omega)]
        · intro k w hk
          cases k with
          | zero =>
            obtain rfl := Option.some.inj hk
            refine ⟨gap.length, ?_, ?_⟩
            · rw [Nat.add_zero, hbefore nargs (Nat.lt_succ_self _)]
              exact List.getElem?_set_self (by omega)
            · rw [List.drop_left]
              exact load_append word t hnul
          | succ k =>
            obtain ⟨i, hi, hload⟩ := hwords k w hk
            refine ⟨(gap ++ (word ++ [0])).length + i, ?_, ?_⟩
            · have hidx : nargs + (k + 1) = nargs + 1 + k := by omega
              rw [hidx, hi, List.length_append, Nat.add_assoc]
            · have ht : gap ++ (word ++ 0 :: t) = gap ++ (word ++ [0]) ++ t := by simp
              rw [ht, ← List.drop_drop, List.drop_left]
              exact hload
        · rw [hnull, List.getElem?_set_ne (by omega)]

/-- `parse_line` keeps its contract exactly when there is a `NULL` to be stored, or one already at the
end of `argv`. -/
theorem parse_line_splits_iff (line b : List UInt8) (hline : NulFree line) (argv : List (Option ℕ))
    (hargv : argv.length = cfgMaxargs + 1) :
    Splits line b argv ↔ Terminated line ∨ argv[cfgMaxargs]? = some none := by
  obtain ⟨argv', t, hrun, -, hwords, hnull⟩ := parseLineLoop_spec cfgMaxargs hline [] b argv 0 (by omega)
  have hcount : (parseLine cfgMaxargs line).1.length = min (words line).length cfgMaxargs := by
    rw [parseLine_eq, List.length_take, Nat.min_comm]
  rw [hcount, Nat.zero_add, List.nil_append, List.nil_append, List.length_nil] at hrun
  rw [hcount, Nat.zero_add] at hnull
  have hiff : Splits line b argv ↔ argv'[min (words line).length cfgMaxargs]? = some none := by
    constructor
    · rintro ⟨argv'', d', hrun', -, hend⟩
      rw [parseLineAt, hrun] at hrun'
      obtain ⟨-, rfl, -⟩ := Option.some.inj hrun'
      exact hend
    · intro hend
      refine ⟨argv', t, hrun, ?_, hend⟩
      intro k word hk
      rw [← parseLine_eq] at hk
      obtain ⟨i, hi, hload⟩ := hwords k word hk
      rw [Nat.zero_add, List.length_nil, Nat.zero_add] at hi
      exact ⟨i, hi, hload⟩
  rw [hiff, hnull]
  have hterm := parseLine_null_iff cfgMaxargs line
  by_cases hflag : (parseLine cfgMaxargs line).2 = true
  · rw [if_pos hflag]
    refine iff_of_true rfl (.inl ?_)
    exact (hterm.mp hflag).imp_right fun h ↦ ⟨h.1, h.2.2⟩
  · rw [if_neg hflag]
    have hnot : ¬ Terminated line := by
      intro h
      exact hflag (hterm.mpr (h.imp_right fun h ↦ ⟨h.1, by decide, h.2⟩))
    have hfull : min (words line).length cfgMaxargs = cfgMaxargs := by
      have hge : ¬ (words line).length < cfgMaxargs := fun h ↦ hnot (.inl h)
      omega
    rw [hfull, or_iff_right hnot]

/-- `argv` on the stack, with pointers in it. -/
def staleArgv : List (Option ℕ) := List.replicate (cfgMaxargs + 1) (some 77)

theorem parse_line_splits_two : Splits (ascii " echo\tx ") [] staleArgv :=
  (parse_line_splits_iff (ascii " echo\tx ") [] (by decide) staleArgv (by decide)).mpr
    (.inl (.inl (by decide)))

/-- Sixteen words and a blank: the result is 16 and `argv[16]` stays as it is. -/
theorem parse_line_no_null :
    ∃ argv' d', parseLineAt (ascii "a b c d e f g h i j k l m n o p " ++ [0]) staleArgv =
        some (16, argv', d') ∧ argv'[16]? = some (some 77) ∧
      ¬ Splits (ascii "a b c d e f g h i j k l m n o p ") [] staleArgv := by
  have hrun : (parseLineAt (ascii "a b c d e f g h i j k l m n o p " ++ [0]) staleArgv).map
      (fun r ↦ (r.1, r.2.1[16]?)) = some (16, some (some 77)) := by
    decide +kernel
  obtain ⟨⟨n, argv', d'⟩, hline, heq⟩ := Option.map_eq_some_iff.mp hrun
  obtain ⟨rfl, hstale⟩ := Prod.mk.inj heq
  refine ⟨argv', d', hline, hstale, ?_⟩
  rintro ⟨argv'', d'', hrun', -, hend⟩
  rw [hline] at hrun'
  obtain ⟨hn, rfl, rfl⟩ := Option.some.inj hrun'
  have hcount : min (words (ascii "a b c d e f g h i j k l m n o p ")).length cfgMaxargs = 16 := by
    decide +kernel
  rw [hcount, hstale] at hend
  cases hend

end UBoot.Common.ParseLine
