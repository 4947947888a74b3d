import UBoot.LibMips.MipsLinux

namespace UBoot.LibMips.CommandLine

open Lib.CString Lib.Memory LibGeneric.Vsprintf MipsLinux

/-- The first blank outside of quotes, in a text that starts inside or outside of them. A quote
without a partner goes to the end. -/
def cutPoint : Bool → CStr → Option ℕ
  | _, [] => none
  | inside, c :: s =>
    if c = blank ∧ inside = false then some 0
    else (cutPoint (inside != (c == quotationMark)) s).map (· + 1)

/-- The text cut at the blanks outside of quotes. -/
def splitQuoted : Bool → CStr → List CStr
  | _, [] => [[]]
  | inside, c :: s =>
    if c = blank ∧ inside = false then [] :: splitQuoted false s
    else (splitQuoted (inside != (c == quotationMark)) s).modifyHead (c :: ·)

/-- The pieces of a command line: what is behind a blank at its end is no piece. -/
def pieces (line : CStr) : List CStr :=
  let ps := splitQuoted false line
  if ps.getLast? = some [] then ps.dropLast else ps

/-- Texts with single blanks between them. -/
def join : List CStr → CStr
  | [] => []
  | [p] => p
  | p :: q :: ps => p ++ blank :: join (q :: ps)

/-- From entry `i` on, the table at `table` points to the strings `as`, which stand one behind the
other between `lo` and `hi`, each with its NUL. -/
def Stored (m : Mem) (table : ℕ) : ℕ → ℕ → List CStr → ℕ → Prop
  | _, lo, [], hi => lo ≤ hi
  | i, lo, a :: as, hi => ∃ addr, lo ≤ addr ∧ bytes m (table + 4 * i) 4 = be32 addr ∧
      bytes m addr (a.length + 1) = a ++ [0] ∧ Stored m table (i + 1) (addr + a.length + 1) as hi

/-- The argument that a piece becomes. -/
def argument (soc : Soc) (p : CStr) : CStr := (revision soc p).getD p

/-- The arguments of the kernel behind the first one. -/
def arguments (soc : Soc) (ramSize : ℕ) (line : CStr) : List CStr :=
  (pieces line).map (argument soc) ++
    if soc.addsMem && !contains line (ascii "mem=") then [memstr ramSize] else []

/-- The table at `start` holds these arguments, which stand behind it. -/
structure Passed (m : Mem) (start : ℕ) (args : List CStr) (s : Params) : Prop where
  argc : s.linuxArgc = args.length + 1
  argv : s.linuxArgv = start
  stored : Stored (s.mem m) start 1 (start + 4 * linuxMaxArgs) args s.argp

section Split

variable {t line : CStr}

theorem strchr_cons (x c : UInt8) (s : CStr) :
    strchr (x :: s) c = if x = c then some 0 else (strchr s c).map (· + 1) := by
  rw [strchr, strchr, List.findIdx?_cons]
  by_cases hx : x = c <;> simp [hx]

theorem cutPoint_none (inside : Bool) (h : strchr t blank = none) : cutPoint inside t = none := by
  induction t generalizing inside with
  | nil => rfl
  | cons x t ih =>
    rw [strchr_cons] at h
    split_ifs at h with hx
    rw [cutPoint, if_neg fun hboth ↦ hx hboth.1, ih _ (Option.map_eq_none_iff.mp h), Option.map_none]

theorem cutPoint_inside (t : CStr) :
    cutPoint true t =
      (strchr t quotationMark).bind fun r ↦ (cutPoint false (t.drop (r + 1))).map (r + 1 + ·) := by
  induction t with
  | nil => rfl
  | cons x t ih =>
    rw [cutPoint, if_neg (by simp), strchr_cons]
    by_cases hx : x = quotationMark
    · rw [if_pos hx, Option.bind_some, List.drop_one, List.tail_cons]
      simp [hx, Nat.add_comm]
    · have hflag : (true != (x == quotationMark)) = true := by simp [hx]
      rw [if_neg hx, hflag, ih]
      cases strchr t quotationMark with
      | none => rfl
      | some r =>
        rw [Option.map_some, Option.bind_some, Option.bind_some, List.drop_succ_cons, Option.map_map]
        congr 1
        funext k
        exact Nat.add_right_comm _ _ _

theorem cutPoint_blank {n : ℕ} (hn : strchr t blank = some n)
    (hq : ∀ q, strchr t quotationMark = some q → n < q) : cutPoint false t = some n := by
  induction t generalizing n with
  | nil => cases hn
  | cons x t ih =>
    rw [strchr_cons] at hn
    split_ifs at hn with hx
    · cases hn
      rw [cutPoint, if_pos ⟨hx, rfl⟩]
    · obtain ⟨k, hk, rfl⟩ := Option.map_eq_some_iff.mp hn
      have hmark : x ≠ quotationMark := fun hmark ↦
        absurd (hq 0 (by rw [strchr_cons, if_pos hmark])) (by omega)
      have hflag : (false != (x == quotationMark)) = false := by simp [hmark]
      rw [cutPoint, if_neg fun hboth ↦ hx hboth.1, hflag, ih hk fun q hq' ↦ ?_, Option.map_some]
      have hlt := hq (q + 1) (by rw [strchr_cons, if_neg hmark, hq', Option.map_some])
      omega

theorem cutPoint_mark {q : ℕ} (hq : strchr t quotationMark = some q)
    (hn : ∀ n, strchr t blank = some n → q < n) :
    cutPoint false t = (cutPoint true (t.drop (q + 1))).map (q + 1 + ·) := by
  induction t generalizing q with
  | nil => cases hq
  | cons x t ih =>
    have hx : x ≠ blank := fun hx ↦
      absurd (hn 0 (by rw [strchr_cons, if_pos hx])) (by omega)
    rw [cutPoint, if_neg fun hboth ↦ hx hboth.1]
    rw [strchr_cons] at hq
    split_ifs at hq with hmark
    · cases hq
      simp [hmark, Nat.add_comm]
    · obtain ⟨k, hk, rfl⟩ := Option.map_eq_some_iff.mp hq
      have hflag : (false != (x == quotationMark)) = false := by simp [hmark]
      rw [hflag, ih hk fun n hn' ↦ ?_, List.drop_succ_cons, Option.map_map]
      · congr 1
        funext j
        exact Nat.add_right_comm _ _ _
      · have hlt := hn (n + 1) (by rw [strchr_cons, if_neg hx, hn', Option.map_some])
        omega

theorem getElem?_strchr {c : UInt8} {i : ℕ} (h : strchr t c = some i) : t[i]? = some c := by
  obtain ⟨hlt, heq, -⟩ := List.findIdx?_eq_some_iff_getElem.mp h
  rw [List.getElem?_eq_getElem hlt, Option.some_inj]
  simpa using heq

theorem strchr_lt {c : UInt8} {i : ℕ} (h : strchr t c = some i) : i < t.length :=
  (List.findIdx?_eq_some_iff_getElem.mp h).1

/-- The loop hops to the first blank outside of quotes. -/
theorem skipQuoted_eq (line : CStr) {fuel p : ℕ} (hp : p ≤ line.length) (hfuel : line.length < p + fuel) :
    skipQuoted line fuel (strchrFrom line p quotationMark) (strchrFrom line p blank) =
      (cutPoint false (line.drop p)).map (p + ·) := by
  induction fuel generalizing p with
  | zero => omega
  | succ fuel ih =>
    rw [strchrFrom, strchrFrom]
    cases hn : strchr (line.drop p) blank with
    | none =>
      rw [cutPoint_none false hn]
      cases strchr (line.drop p) quotationMark <;> rfl
    | some n =>
      cases hq : strchr (line.drop p) quotationMark with
      | none =>
        rw [cutPoint_blank hn (by simp [hq])]
        rfl
      | some q =>
        rw [Option.map_some, Option.map_some, skipQuoted]
        by_cases hlt : q < n
        · have hmark := cutPoint_mark hq fun k hk ↦ by
            rw [hn] at hk
            cases hk
            exact hlt
          rw [if_pos (by omega), hmark, cutPoint_inside, List.drop_drop, strchrFrom, Nat.add_assoc]
          cases hr : strchr (line.drop (p + (q + 1))) quotationMark with
          | none => rfl
          | some r =>
            have hle := strchr_lt hr
            rw [List.length_drop] at hle
            rw [Option.map_some, Option.bind_some, List.drop_drop]
            dsimp only
            rw [ih (by omega) (by omega), Option.map_map, Option.map_map, Nat.add_assoc _ r]
            congr 1
            funext k
            simp only [Function.comp_apply]
            omega
        · have hne : q ≠ n := by
            rintro rfl
            have hboth := (getElem?_strchr hn).symm.trans (getElem?_strchr hq)
            exact absurd hboth (by decide)
          rw [if_neg (by omega), cutPoint_blank hn fun k hk ↦ ?_, Option.map_some]
          rw [hq] at hk
          cases hk
          omega

theorem nextBlank_eq (line : CStr) : nextBlank line = (cutPoint false line).getD line.length := by
  have hfuel : line.length < 0 + (line.length + 1) := by omega
  have h := skipQuoted_eq line (Nat.zero_le _) hfuel
  have hzero (c : UInt8) : strchrFrom line 0 c = strchr line c := by
    simp [strchrFrom]
  rw [hzero, hzero, List.drop_zero] at h
  rw [nextBlank, h]
  simp

/-- The first piece goes to the first blank outside of quotes. -/
theorem splitQuoted_eq (inside : Bool) (t : CStr) :
    splitQuoted inside t = (cutPoint inside t).elim [t] fun n ↦
      t.take n :: splitQuoted false (t.drop (n + 1)) := by
  induction t generalizing inside with
  | nil => rfl
  | cons x t ih =>
    rw [splitQuoted, cutPoint]
    split_ifs with hcut
    · rfl
    · rw [ih]
      cases cutPoint (inside != (x == quotationMark)) t <;> rfl

theorem splitQuoted_ne_nil (inside : Bool) (t : CStr) : splitQuoted inside t ≠ [] := by
  rw [splitQuoted_eq]
  cases cutPoint inside t <;> simp

theorem join_cons (p : CStr) {ps : List CStr} (h : ps ≠ []) :
    join (p :: ps) = p ++ blank :: join ps := by
  obtain ⟨q, ps, rfl⟩ := List.exists_cons_of_ne_nil h
  rfl

theorem join_splitQuoted (inside : Bool) (t : CStr) : join (splitQuoted inside t) = t := by
  induction t generalizing inside with
  | nil => rfl
  | cons x t ih =>
    rw [splitQuoted]
    split_ifs with hcut
    · rw [join_cons _ (splitQuoted_ne_nil _ _), ih, hcut.1]
      rfl
    · have hrest := ih (inside != (x == quotationMark))
      obtain ⟨p, ps, hps⟩ :=
        List.exists_cons_of_ne_nil (splitQuoted_ne_nil (inside != (x == quotationMark)) t)
      rw [hps] at hrest ⊢
      rw [List.modifyHead_cons, ← hrest]
      cases ps <;> rfl

theorem join_concat_nil (ps : List CStr) (h : ps ≠ []) : join (ps ++ [[]]) = join ps ++ [blank] := by
  induction ps with
  | nil => exact absurd rfl h
  | cons p ps ih =>
    cases ps with
    | nil => rfl
    | cons q ps =>
      rw [List.cons_append, join_cons _ (by simp), join_cons _ (by simp), ih (by simp)]
      simp

/-- The pieces with single blanks between them are the line, but for a blank at its end. -/
theorem join_pieces (line : CStr) :
    line = join (pieces line) ∨ line = join (pieces line) ++ [blank] := by
  have hjoin := join_splitQuoted false line
  rw [pieces]
  split_ifs with hlast
  · obtain ⟨ps, hps⟩ := List.getLast?_eq_some_iff.mp hlast
    rw [hps, List.dropLast_concat]
    rw [hps] at hjoin
    cases ps with
    | nil => exact .inl hjoin.symm
    | cons p ps =>
      rw [join_concat_nil _ (by simp)] at hjoin
      exact .inr hjoin.symm
  · exact .inl hjoin.symm

theorem pieces_nil : pieces [] = [] := rfl

theorem pieces_cons (h : line ≠ []) :
    pieces line = line.take (nextBlank line) :: pieces (line.drop (nextBlank line + 1)) := by
  rw [nextBlank_eq, pieces, splitQuoted_eq]
  cases hcut : cutPoint false line with
  | none =>
    rw [Option.getD_none, List.take_length, List.drop_of_length_le (Nat.le_succ _), pieces_nil,
      Option.elim_none]
    simp [h]
  | some n =>
    rw [Option.getD_some, Option.elim_some, pieces]
    have hne := splitQuoted_ne_nil false (line.drop (n + 1))
    rw [List.getLast?_cons_of_ne_nil hne, List.dropLast_cons_of_ne_nil hne]
    split_ifs <;> rfl

end Split

section Table

variable {m m' : Mem} {table i lo mid hi : ℕ} {as bs : List CStr}

theorem Stored.le (h : Stored m table i lo as hi) : lo ≤ hi := by
  induction as generalizing i lo with
  | nil => exact h
  | cons a as ih =>
    obtain ⟨addr, hlo, -, -, hrest⟩ := h
    have := ih hrest
    omega

theorem Stored.congr (h : Stored m table i lo as hi)
    (htable : ∀ k, table + 4 * i ≤ k → k < table + 4 * (i + as.length) → m' k = m k)
    (htext : ∀ k, lo ≤ k → k < hi → m' k = m k) : Stored m' table i lo as hi := by
  induction as generalizing i lo with
  | nil => exact h
  | cons a as ih =>
    obtain ⟨addr, hlo, hentry, hstring, hrest⟩ := h
    have hle := hrest.le
    rw [List.length_cons] at htable
    refine ⟨addr, hlo, ?_, ?_, ih hrest (fun k hk hk' ↦ htable k (by omega) (by omega))
      fun k hk hk' ↦ htext k (by omega) hk'⟩
    · rw [← hentry]
      exact bytes_congr fun k hk hk' ↦ htable k (by omega) (by omega)
    · rw [← hstring]
      exact bytes_congr fun k hk hk' ↦ htext k (by omega) (by omega)

theorem Stored.append (h : Stored m table i lo as mid)
    (h' : Stored m table (i + as.length) mid bs hi) : Stored m table i lo (as ++ bs) hi := by
  induction as generalizing i lo with
  | nil =>
    cases bs with
    | nil => exact Nat.le_trans h h'
    | cons b bs =>
      obtain ⟨addr, hlo, hrest⟩ := h'
      exact ⟨addr, Nat.le_trans h hlo, hrest⟩
  | cons a as ih =>
    obtain ⟨addr, hlo, hentry, hstring, hrest⟩ := h
    refine ⟨addr, hlo, hentry, hstring, ih hrest ?_⟩
    rwa [Nat.add_assoc i, Nat.add_comm 1]

variable {soc : Soc} {s : Params} {p : CStr} {k : ℕ}

theorem revision_length {name : CStr} (h : revision soc p = some name) :
    name.length < p.length := by
  cases soc with
  | ar7100 => cases h
  | ar9100 => cases h
  | ar7240 virian =>
    rw [revision] at h
    split_ifs at h with hp hvirian
    all_goals
      cases h
      rw [hp]
      decide

/-- The stores of a turn that write its text. -/
def textWrites (soc : Soc) (argp : ℕ) (p : CStr) : List Write :=
  .text argp (p ++ [0]) :: ((revision soc p).map fun name ↦ Write.text argp (name ++ [0])).toList

theorem textWrites_mem (soc : Soc) (p : CStr) (m : Mem) (argp : ℕ) :
    bytes ((textWrites soc argp p).foldl Write.apply m) argp ((argument soc p).length + 1) =
        argument soc p ++ [0] ∧
      ∀ k, k < argp ∨ argp + p.length + 1 ≤ k →
        (textWrites soc argp p).foldl Write.apply m k = m k := by
  have hout (m : Mem) (a : CStr) (ha : a.length ≤ p.length) (k : ℕ)
      (hk : k < argp ∨ argp + p.length + 1 ≤ k) : store m argp (a ++ [0]) k = m k := by
    rcases hk with hk | hk
    · exact store_of_lt m _ hk
    · refine store_of_le m ?_
      rw [List.length_append, List.length_singleton]
      omega
  rw [textWrites, argument]
  cases hrev : revision soc p with
  | none =>
    exact ⟨bytes_store_of_length m (by simp), hout m p (Nat.le_refl _)⟩
  | some name =>
    have hlt := revision_length hrev
    refine ⟨bytes_store_of_length _ (by simp), fun k hk ↦ ?_⟩
    exact (hout _ name hlt.le k hk).trans (hout m p (Nat.le_refl _) k hk)

/-- What one argument does to the memory. -/
theorem addArg_mem (soc : Soc) (p : CStr) (m : Mem) (hargc : s.linuxArgc < linuxMaxArgs)
    (hargp : s.linuxArgv + 4 * linuxMaxArgs ≤ s.argp) :
    Stored ((addArg soc s p).mem m) s.linuxArgv s.linuxArgc s.argp [argument soc p]
        (addArg soc s p).argp ∧
      ∀ k, k < s.linuxArgv + 4 * s.linuxArgc ∨ s.linuxArgv + 4 * linuxMaxArgs ≤ k ∧ k < s.argp →
        (addArg soc s p).mem m k = s.mem m k := by
  have hmem : (addArg soc s p).mem m = (textWrites soc s.argp p).foldl Write.apply
      (store (s.mem m) (s.linuxArgv + 4 * s.linuxArgc) (be32 s.argp)) := by
    simp only [Params.mem, addArg, List.foldl_append]
    rfl
  have hrev : (argument soc p).length ≤ p.length := by
    rw [argument]
    cases hname : revision soc p with
    | none => exact Nat.le_refl _
    | some name => exact (revision_length hname).le
  obtain ⟨htext, hout⟩ := textWrites_mem soc p
    (store (s.mem m) (s.linuxArgv + 4 * s.linuxArgc) (be32 s.argp)) s.argp
  rw [linuxMaxArgs] at hargc hargp
  rw [hmem]
  refine ⟨⟨s.argp, Nat.le_refl _, ?_, htext, ?_⟩, fun k hk ↦ ?_⟩
  · rw [bytes_congr fun k hk hk' ↦ hout k (by omega)]
    exact bytes_store_of_length _ (be32_length _)
  · change s.argp + (argument soc p).length + 1 ≤ s.argp + p.length + 1
    omega
  · rw [linuxMaxArgs] at hk
    rw [hout k (by omega)]
    rcases hk with hk | hk
    · exact store_of_lt _ _ hk
    · exact store_of_le _ (by rw [be32_length]; omega)

/-- What the arguments of the line do to the memory. -/
theorem foldl_addArg (soc : Soc) (m : Mem) (ps : List CStr) (hargc : s.linuxArgc + ps.length ≤ linuxMaxArgs)
    (hargp : s.linuxArgv + 4 * linuxMaxArgs ≤ s.argp) :
    Stored ((ps.foldl (addArg soc) s).mem m) s.linuxArgv s.linuxArgc s.argp
        (ps.map (argument soc)) (ps.foldl (addArg soc) s).argp ∧
      (ps.foldl (addArg soc) s).linuxArgc = s.linuxArgc + ps.length ∧
      (ps.foldl (addArg soc) s).linuxArgv = s.linuxArgv ∧
      ∀ k, k < s.linuxArgv + 4 * s.linuxArgc ∨ s.linuxArgv + 4 * linuxMaxArgs ≤ k ∧ k < s.argp →
        (ps.foldl (addArg soc) s).mem m k = s.mem m k := by
  induction ps generalizing s with
  | nil => exact ⟨Nat.le_refl _, rfl, rfl, fun _ _ ↦ rfl⟩
  | cons p ps ih =>
    rw [List.length_cons] at hargc
    obtain ⟨hstored, hframe⟩ := addArg_mem soc p m (by omega) hargp
    have hargc' : (addArg soc s p).linuxArgc = s.linuxArgc + 1 := rfl
    have hargv' : (addArg soc s p).linuxArgv = s.linuxArgv := rfl
    have hargp' : (addArg soc s p).argp = s.argp + p.length + 1 := rfl
    obtain ⟨hrest, hargc'', hargv'', hframe'⟩ := ih (s := addArg soc s p) (by omega) (by omega)
    rw [hargc', hargv'] at hrest hframe'
    rw [List.foldl_cons, List.map_cons, List.length_cons]
    refine ⟨?_, by omega, hargv''.trans hargv', fun k hk ↦ ?_⟩
    · change Stored _ _ _ _ ([argument soc p] ++ _) _
      refine Stored.append ?_ hrest
      rw [linuxMaxArgs] at *
      apply hstored.congr
      · intro k hk hk'
        rw [List.length_singleton] at hk'
        exact hframe' k (by omega)
      · intro k hk hk'
        exact hframe' k (by omega)
    · rw [hframe' k (by omega), hframe k hk]

end Table

section Arguments

variable {soc : Soc} {ramSize start : ℕ} {line : CStr}

theorem argLoop_eq (room : ℕ) (line : CStr) (s : Params) :
    argLoop soc room line s = ((pieces line).take room).foldl (addArg soc) s := by
  induction room generalizing line s with
  | zero => rfl
  | succ room ih =>
    rw [argLoop]
    split_ifs with hline
    · rw [hline, pieces_nil]
      rfl
    · rw [pieces_cons hline, List.take_succ_cons, List.foldl_cons]
      exact ih _ _

theorem addMem_mem (ramSize : ℕ) (m : Mem) {s : Params} (hargc : s.linuxArgc < linuxMaxArgs)
    (hargp : s.linuxArgv + 4 * linuxMaxArgs ≤ s.argp) :
    Stored ((addMem ramSize s).mem m) s.linuxArgv s.linuxArgc s.argp [memstr ramSize]
        (addMem ramSize s).argp ∧
      ∀ k, k < s.linuxArgv + 4 * s.linuxArgc ∨ s.linuxArgv + 4 * linuxMaxArgs ≤ k ∧ k < s.argp →
        (addMem ramSize s).mem m k = s.mem m k := by
  have hmem : (addMem ramSize s).mem m =
      store (store (s.mem m) s.argp (memstr ramSize ++ [0])) (s.linuxArgv + 4 * s.linuxArgc)
        (be32 s.argp) := by
    simp only [Params.mem, addMem, List.foldl_append]
    rfl
  rw [linuxMaxArgs] at hargc hargp
  rw [hmem]
  refine ⟨⟨s.argp, Nat.le_refl _, bytes_store_of_length _ (be32_length _), ?_, Nat.le_refl _⟩,
    fun k hk ↦ ?_⟩
  · rw [bytes_store_of_le _ (by rw [be32_length]; omega)]
    exact bytes_store_of_length _ (by simp)
  · rw [linuxMaxArgs] at hk
    rcases hk with hk | hk
    · rw [store_of_lt _ _ hk, store_of_lt _ _ (by omega)]
    · rw [store_of_le _ (by rw [be32_length]; omega), store_of_lt _ _ hk.2]

theorem initEnv_mem (m : Mem) (s : Params) {k : ℕ} (hk : k < s.argp) :
    (initEnv s).mem m k = s.mem m k := by
  have hmem : (initEnv s).mem m = store (s.mem m) ((s.argp + 15) / 16 * 16 + 4 * 0) (be32 0) := by
    simp only [Params.mem, initEnv, List.foldl_append]
    rfl
  rw [hmem]
  exact store_of_lt _ _ (by omega)

/-- The state in front of the loop. -/
def begin (start : ℕ) : Params := ⟨1, start, start + 4 * linuxMaxArgs, 0, 0, 0, [.argv start 0 0]⟩

theorem linuxParamsInit_eq (soc : Soc) (ramSize start : ℕ) (line : CStr) :
    linuxParamsInit soc ramSize start (some line) =
      some (initEnv (if soc.addsMem && !contains line (ascii "mem=") then
        addMem ramSize (((pieces line).take (linuxMaxArgs - 1)).foldl (addArg soc) (begin start))
        else ((pieces line).take (linuxMaxArgs - 1)).foldl (addArg soc) (begin start))) := by
  rw [← argLoop_eq]
  rfl

theorem Passed.initEnv {m : Mem} {args : List CStr} {s : Params} (h : Passed m start args s)
    (hfew : args.length < linuxMaxArgs) : Passed m start args (initEnv s) := by
  have hle := h.stored.le
  rw [linuxMaxArgs] at hle hfew
  exact ⟨h.argc, h.argv, h.stored.congr (fun k _ hk ↦ initEnv_mem m s (by omega))
    fun k _ hk ↦ initEnv_mem m s hk⟩

/-- The kernel gets the pieces of its command line, a revision in place of its name, and the size of
the memory when the line does not give one. -/
theorem linux_params_init_arguments (soc : Soc) (ramSize start : ℕ) (line : CStr) (m : Mem)
    (hfew : (arguments soc ramSize line).length < linuxMaxArgs) :
    (∃ s, linuxParamsInit soc ramSize start (some line) = some s ∧
      Passed m start (arguments soc ramSize line) s) ∧
    (line = join (pieces line) ∨ line = join (pieces line) ++ [blank]) := by
  refine ⟨⟨_, linuxParamsInit_eq soc ramSize start line, ?_⟩, join_pieces line⟩
  refine Passed.initEnv ?_ hfew
  rw [arguments] at hfew ⊢
  rw [List.length_append, List.length_map] at hfew
  rw [List.take_of_length_le (by rw [linuxMaxArgs] at *; omega)]
  have hroom : (begin start).linuxArgc + (pieces line).length ≤ linuxMaxArgs := by
    change 1 + _ ≤ _
    omega
  obtain ⟨hstored, hargc, hargv, -⟩ :=
    foldl_addArg soc m (pieces line) hroom (Nat.le_refl _)
  generalize (pieces line).foldl (addArg soc) (begin start) = s at hstored hargc hargv ⊢
  change s.linuxArgc = 1 + (pieces line).length at hargc
  change s.linuxArgv = start at hargv
  have hle := hstored.le
  split_ifs at hfew ⊢ with hadds
  · change _ + 1 < _ at hfew
    obtain ⟨hmem, hframe⟩ := addMem_mem ramSize m (s := s) (by omega)
      (by rw [hargv]; exact hle)
    rw [hargv, hargc] at hmem
    refine ⟨?_, hargv, Stored.append (hstored.congr ?_ ?_) ?_⟩
    · change s.linuxArgc + 1 = _
      rw [hargc, List.length_append, List.length_map, List.length_singleton, Nat.add_comm 1]
    · intro k hk hk'
      rw [List.length_map] at hk'
      exact hframe k (.inl (by rw [hargv, hargc]; exact hk'))
    · intro k hk hk'
      exact hframe k (.inr ⟨by rw [hargv]; exact hk, hk'⟩)
    · rw [List.length_map]
      exact hmem
  · rw [List.append_nil]
    refine ⟨?_, hargv, hstored⟩
    rw [hargc, List.length_map, Nat.add_comm]

/-- Quotes and a blank at the end. -/
theorem linux_params_init_arguments_quoted :
    (∃ s, linuxParamsInit .ar9100 0x2000000 0xa0000000 (some (ascii "a \"b c\" d ")) = some s ∧
      Passed (fun _ ↦ 0) 0xa0000000
        (arguments .ar9100 0x2000000 (ascii "a \"b c\" d ")) s) ∧
    (ascii "a \"b c\" d " = join (pieces (ascii "a \"b c\" d ")) ∨
      ascii "a \"b c\" d " = join (pieces (ascii "a \"b c\" d ")) ++ [blank]) :=
  linux_params_init_arguments _ _ _ _ _ (by decide +kernel)

example : arguments .ar9100 0x2000000 (ascii "a \"b c\" d ") =
    [ascii "a", ascii "\"b c\"", ascii "d", ascii "mem=32M"] := by decide +kernel

/-- The size of the memory is no piece of the line. -/
theorem not_only_pieces :
    (pieces (ascii "a")).length < linuxMaxArgs ∧
      ¬ ∃ s, linuxParamsInit .ar9100 0x2000000 0xa0000000 (some (ascii "a")) = some s ∧
        Passed (fun _ ↦ 0) 0xa0000000 (pieces (ascii "a")) s := by
  refine ⟨by decide, ?_⟩
  rintro ⟨s, hs, hpassed⟩
  have hargc : (linuxParamsInit .ar9100 0x2000000 0xa0000000 (some (ascii "a"))).map
      Params.linuxArgc = some 3 := by decide +kernel
  rw [hs, Option.map_some, hpassed.argc] at hargc
  exact absurd hargc (by decide)

end Arguments

end UBoot.LibMips.CommandLine
