import UBoot.Common.Main

namespace UBoot.Common.ProcessMacros

open Lib.CString Main

/-- `output` as an index of the buffer, and `outputcnt`. -/
structure Out where
  buf : List UInt8
  output : ℕ
  outputcnt : ℤ

/-- `*(output++) = c; outputcnt--;` -/
def Out.put (o : Out) (c : UInt8) : Option Out :=
  (poke o.buf o.output c).map fun buf ↦ ⟨buf, o.output + 1, o.outputcnt - 1⟩

/-- `while ((*envval) && outputcnt)` with the copy of a byte. -/
def Out.copy (o : Out) : CStr → Option Out
  | [] => some o
  | c :: envval => if o.outputcnt = 0 then some o else (o.put c).bind fun o ↦ o.copy envval

/-- What the `switch` of `process_macros` stores. The name goes through `envname`, which has
`CFG_CBSIZE` bytes. -/
def Out.emit (getenv : CStr → Option CStr) (state : MacroState) (prev : UInt8) (varname : CStr)
    (o : Out) (c : UInt8) : Option Out :=
  match state with
  | .text => if (c = quote ∨ c = dollar) ∧ prev ≠ backslash then some o else o.put c
  | .dollar =>
    if isOpening c then some o
    else (o.put dollar).bind fun o ↦ if o.outputcnt = 0 then some o else o.put c
  | .name =>
    if isClosing c then
      if varname.length < cfgCbsize then
        match getenv varname with
        | none => some o
        | some envval => o.copy envval
      else none
    else some o
  | .quoted => if c = quote ∧ prev ≠ backslash then some o else o.put c

/-- The bytes from `varname_start` on, behind a turn of the loop. -/
def nextName (state : MacroState) (varname : CStr) (c : UInt8) : CStr :=
  if state = .name then varname ++ [c] else []

/-- The loop of `process_macros`, with the turns of `macroLoop`. -/
def macroLoopAt (getenv : CStr → Option CStr) (state : MacroState) (prev : UInt8) (varname : CStr)
    (o : Out) : CStr → Option Out
  | [] => some o
  | c :: input =>
    if o.outputcnt = 0 then some o
    else if Escapes state prev c then macroLoopAt getenv state c (varname ++ [c]) o input
    else (o.emit getenv state prev varname c).bind fun o ↦
      macroLoopAt getenv (state.next prev c) c (nextName state varname c) o input

/-- `process_macros(input, output)` for the buffer `output`. -/
def processMacrosAt (getenv : CStr → Option CStr) (input : CStr) (output : List UInt8) :
    Option (List UInt8) :=
  (macroLoopAt getenv .text 0 [] ⟨output, 0, cfgCbsize⟩ input).bind fun o ↦
    if o.outputcnt = 0 then some o.buf else poke o.buf o.output 0

/-- What `input` expands to, for a buffer without an end. -/
def expansion (getenv : CStr → Option CStr) (state : MacroState) (prev : UInt8) (varname : CStr) :
    CStr → CStr
  | [] => []
  | c :: input =>
    if Escapes state prev c then expansion getenv state c (varname ++ [c]) input
    else Macros.emit getenv ⟨state, prev, varname, []⟩ c ++
      expansion getenv (state.next prev c) c (nextName state varname c) input

/-- The string in `output` is `text`, whatever the bytes were before. -/
def Outputs (getenv : CStr → Option CStr) (input text : CStr) : Prop :=
  ∀ output, output.length = cfgCbsize →
    ∃ rest, processMacrosAt getenv input output = some (text ++ 0 :: rest)

/-- There is a terminator in the buffer, behind bytes that were all stored. -/
def Terminates (getenv : CStr → Option CStr) (input : CStr) : Prop :=
  ∃ text, Outputs getenv input text

/-- `out` is what has been stored so far. -/
structure Filled (out : CStr) (o : Out) : Prop where
  stored : ∃ rest, o.buf = out ++ rest
  output : o.output = out.length
  outputcnt : o.outputcnt = cfgCbsize - out.length
  length : o.buf.length = cfgCbsize

theorem take_take_append (xs ys : CStr) (n : ℕ) :
    (xs.take n ++ ys).take n = (xs ++ ys).take n := by
  rcases Nat.le_total xs.length n with h | h
  · rw [List.take_of_length_le h]
  · rw [List.take_append_of_le_length h, List.take_append_of_le_length]
    · rw [List.take_take, Nat.min_self]
    · rw [List.length_take, Nat.min_eq_left h]

section Filled

variable {out : CStr} {o : Out} (h : Filled out o)

include h

theorem Filled.le : out.length ≤ cfgCbsize := by
  obtain ⟨rest, hbuf⟩ := h.stored
  have hlen := congrArg List.length hbuf
  rw [h.length, List.length_append] at hlen
  omega

theorem Filled.lt (hcnt : o.outputcnt ≠ 0) : out.length < cfgCbsize := by
  have hle := h.le
  have hc := h.outputcnt
  omega

theorem Filled.full (hcnt : o.outputcnt = 0) (more : CStr) :
    Filled ((out ++ more).take cfgCbsize) o := by
  have hc := h.outputcnt
  have hlen : out.length = cfgCbsize := by omega
  rwa [List.take_append_of_le_length (Nat.le_of_eq hlen.symm),
    List.take_of_length_le (Nat.le_of_eq hlen)]

/-- There is room for a byte, and it is stored behind the others. -/
theorem Filled.put (c : UInt8) (hcnt : o.outputcnt ≠ 0) :
    ∃ o', o.put c = some o' ∧ Filled (out ++ [c]) o' := by
  obtain ⟨rest, hbuf⟩ := h.stored
  have hlt := h.lt hcnt
  have hlen := h.length
  cases rest with
  | nil =>
    rw [hbuf, List.append_nil] at hlen
    omega
  | cons x rest =>
    rw [hbuf] at hlen
    refine ⟨⟨out ++ c :: rest, o.output + 1, o.outputcnt - 1⟩, ?_, ⟨rest, ?_⟩, ?_, ?_, ?_⟩
    · rw [Out.put, hbuf, h.output, poke_append]
      rfl
    · rw [List.append_assoc]
      rfl
    · rw [h.output, List.length_append]
      rfl
    · rw [h.outputcnt, List.length_append, List.length_singleton]
      push_cast
      omega
    · rw [← hlen, List.length_append, List.length_append]
      rfl

theorem Filled.copy (envval : CStr) :
    ∃ o', o.copy envval = some o' ∧ Filled ((out ++ envval).take cfgCbsize) o' := by
  induction envval generalizing out o with
  | nil =>
    refine ⟨o, rfl, ?_⟩
    rwa [List.append_nil, List.take_of_length_le h.le]
  | cons c envval ih =>
    rw [Out.copy]
    split_ifs with hcnt
    · exact ⟨o, rfl, h.full hcnt _⟩
    · obtain ⟨o₁, hput, h₁⟩ := h.put c hcnt
      obtain ⟨o₂, hcopy, h₂⟩ := ih h₁
      refine ⟨o₂, ?_, ?_⟩
      · rw [hput, Option.bind_some, hcopy]
      · rwa [List.append_assoc] at h₂

theorem Filled.put_take (c : UInt8) (hcnt : o.outputcnt ≠ 0) :
    ∃ o', o.put c = some o' ∧ Filled ((out ++ [c]).take cfgCbsize) o' := by
  obtain ⟨o', hput, h'⟩ := h.put c hcnt
  refine ⟨o', hput, ?_⟩
  rwa [List.take_of_length_le h'.le]

theorem Filled.keep : ∃ o', some o = some o' ∧ Filled ((out ++ []).take cfgCbsize) o' := by
  refine ⟨o, rfl, ?_⟩
  rwa [List.append_nil, List.take_of_length_le h.le]

/-- One turn stores what `Main.Macros.emit` adds, as far as there is room. -/
theorem Filled.emit (getenv : CStr → Option CStr) (state : MacroState) (prev : UInt8)
    {varname : CStr} (hname : varname.length < cfgCbsize) (c : UInt8) (hcnt : o.outputcnt ≠ 0) :
    ∃ o', o.emit getenv state prev varname c = some o' ∧
      Filled ((out ++ Macros.emit getenv ⟨state, prev, varname, []⟩ c).take cfgCbsize) o' := by
  cases state with
  | text =>
    simp only [Out.emit, Macros.emit]
    split_ifs
    · exact h.keep
    · exact h.put_take c hcnt
  | dollar =>
    simp only [Out.emit, Macros.emit]
    split_ifs
    · exact h.keep
    · -- the second byte is stored when there is room for it
      obtain ⟨o₁, hput, h₁⟩ := h.put dollar hcnt
      obtain ⟨o₂, hcopy, h₂⟩ := h₁.copy [c]
      refine ⟨o₂, ?_, ?_⟩
      · rw [hput, Option.bind_some, ← hcopy, Out.copy]
        split_ifs
        · rfl
        · simp [Out.copy]
      · rwa [List.append_assoc] at h₂
  | name =>
    simp only [Out.emit, Macros.emit, if_pos hname]
    split_ifs
    · cases getenv varname with
      | none => exact h.keep
      | some envval => exact h.copy envval
    · exact h.keep
  | quoted =>
    simp only [Out.emit, Macros.emit]
    split_ifs
    · exact h.keep
    · exact h.put_take c hcnt

theorem Filled.loop (getenv : CStr → Option CStr) (state : MacroState) (prev : UInt8)
    {varname input : CStr} (hname : varname.length + input.length < cfgCbsize) :
    ∃ o', macroLoopAt getenv state prev varname o input = some o' ∧
      Filled ((out ++ expansion getenv state prev varname input).take cfgCbsize) o' := by
  induction input generalizing out o state prev varname with
  | nil => exact h.keep
  | cons c input ih =>
    rw [List.length_cons] at hname
    rw [macroLoopAt]
    split_ifs with hfull hescape
    · exact ⟨o, rfl, h.full hfull _⟩
    · rw [expansion, if_pos hescape]
      apply ih h
      rw [List.length_append, List.length_singleton]
      omega
    · rw [expansion, if_neg hescape]
      have hroom : varname.length < cfgCbsize := by omega
      obtain ⟨o₁, hemit, h₁⟩ := h.emit getenv state prev hroom c hfull
      have hnext : (nextName state varname c).length + input.length < cfgCbsize := by
        rw [nextName]
        split_ifs
        · rw [List.length_append, List.length_singleton]
          omega
        · rw [List.length_nil]
          omega
      obtain ⟨o₂, hloop, h₂⟩ := ih h₁ (state.next prev c) c hnext
      refine ⟨o₂, ?_, ?_⟩
      · rw [hemit, Option.bind_some, hloop]
      · rwa [take_take_append, List.append_assoc] at h₂

end Filled

/-- What the buffer holds behind `process_macros`, with and without room for the terminator. -/
theorem processMacrosAt_spec (getenv : CStr → Option CStr) {input : CStr}
    (hinput : input.length < cfgCbsize) {output : List UInt8}
    (houtput : output.length = cfgCbsize) :
    if (expansion getenv .text 0 [] input).length < cfgCbsize then
      ∃ rest, processMacrosAt getenv input output =
        some (expansion getenv .text 0 [] input ++ 0 :: rest)
    else processMacrosAt getenv input output =
      some ((expansion getenv .text 0 [] input).take cfgCbsize) := by
  have hstart : Filled [] ⟨output, 0, cfgCbsize⟩ := ⟨⟨output, rfl⟩, rfl, by simp, houtput⟩
  have hname : ([] : CStr).length + input.length < cfgCbsize := by
    rwa [List.length_nil, Nat.zero_add]
  obtain ⟨o, hloop, h⟩ := hstart.loop getenv .text 0 hname
  rw [List.nil_append] at h
  obtain ⟨rest, hbuf⟩ := h.stored
  have hcnt := h.outputcnt
  have hlen := h.length
  rw [hbuf, List.length_append] at hlen
  rw [processMacrosAt, hloop, Option.bind_some]
  split_ifs with hlt hfull hfull
  · rw [List.take_of_length_le (Nat.le_of_lt hlt)] at hcnt
    omega
  · rw [List.take_of_length_le (Nat.le_of_lt hlt)] at hbuf hlen
    cases rest with
    | nil =>
      rw [List.length_nil] at hlen
      omega
    | cons x rest =>
      refine ⟨rest, ?_⟩
      rw [hbuf, h.output, List.take_of_length_le (Nat.le_of_lt hlt), poke_append]
  · rw [List.length_take, Nat.min_eq_left (Nat.not_lt.mp hlt)] at hlen
    have hrest : rest = [] := List.length_eq_zero_iff.mp (by omega)
    rw [hbuf, hrest, List.append_nil]
  · rw [List.length_take, Nat.min_eq_left (Nat.not_lt.mp hlt), Int.sub_self] at hcnt
    exact absurd hcnt hfull

theorem macroLoop_out (getenv : CStr → Option CStr) (m : Macros) (input : CStr)
    (h : m.out.length ≤ cfgCbsize) : (macroLoop getenv m input).out =
      (m.out ++ expansion getenv m.state m.prev m.varname input).take cfgCbsize := by
  induction input generalizing m with
  | nil => rw [macroLoop, expansion, List.append_nil, List.take_of_length_le h]
  | cons c input ih =>
    rw [macroLoop]
    split_ifs with hfull hescape
    · rw [List.take_append_of_le_length (Nat.le_of_eq hfull.symm), List.take_of_length_le h]
    · rw [ih { m with prev := c, varname := m.varname ++ [c] } h, expansion, if_pos hescape]
    · have hlen : (m.switch getenv c).out.length ≤ cfgCbsize := List.length_take_le _ _
      rw [ih _ hlen, expansion, if_neg hescape, Macros.switch, take_take_append, List.append_assoc]
      rfl

/-- The buffer starts with the bytes that `Main.processMacros` gives. -/
theorem processMacrosAt_eq (getenv : CStr → Option CStr) {input : CStr}
    (hinput : input.length < cfgCbsize) {output : List UInt8}
    (houtput : output.length = cfgCbsize) :
    ∃ rest, processMacrosAt getenv input output = some (processMacros getenv input ++ rest) := by
  have hspec := processMacrosAt_spec getenv hinput houtput
  have hout := macroLoop_out getenv ⟨.text, 0, [], []⟩ input (Nat.zero_le _)
  rw [List.nil_append] at hout
  rw [processMacros, hout]
  split_ifs at hspec with hroom
  · obtain ⟨rest, hrun⟩ := hspec
    refine ⟨0 :: rest, ?_⟩
    rw [hrun, List.take_of_length_le (Nat.le_of_lt hroom)]
  · refine ⟨[], ?_⟩
    rw [hspec, List.append_nil]

theorem expansion_nulFree {getenv : CStr → Option CStr}
    (hgetenv : ∀ name, ∀ value ∈ getenv name, NulFree value) (state : MacroState) (prev : UInt8)
    (varname : CStr) {input : CStr} (hinput : NulFree input) :
    NulFree (expansion getenv state prev varname input) := by
  induction input generalizing state prev varname with
  | nil => exact hinput
  | cons c input ih =>
    have hc : c ≠ 0 := hinput c List.mem_cons_self
    have hrest : NulFree input := fun x hx ↦ hinput x (List.mem_cons_of_mem c hx)
    rw [expansion]
    split_ifs
    · exact ih state c _ hrest
    · intro x hx
      rcases List.mem_append.mp hx with hx | hx
      · have hdollar : dollar ≠ 0 := by decide
        cases state with
        | text =>
          simp only [Macros.emit] at hx
          split_ifs at hx
          · cases hx
          · rwa [List.mem_singleton.mp hx]
        | dollar =>
          simp only [Macros.emit] at hx
          split_ifs at hx
          · cases hx
          · rcases List.mem_cons.mp hx with rfl | hx
            · exact hdollar
            · rwa [List.mem_singleton.mp hx]
        | name =>
          simp only [Macros.emit] at hx
          split_ifs at hx
          · cases hvalue : getenv varname with
            | none => simp [hvalue] at hx
            | some value =>
              rw [hvalue] at hx
              exact hgetenv varname value hvalue x hx
          · cases hx
        | quoted =>
          simp only [Macros.emit] at hx
          split_ifs at hx
          · cases hx
          · rwa [List.mem_singleton.mp hx]
      · exact ih _ c _ hrest x hx

/-- The buffer gets its terminator exactly when the expansion leaves room for it. -/
theorem process_macros_terminates_iff (getenv : CStr → Option CStr)
    (hgetenv : ∀ name, ∀ value ∈ getenv name, NulFree value) (input : CStr) (hinput : NulFree input)
    (hlen : input.length < cfgCbsize) :
    Terminates getenv input ↔ (expansion getenv .text 0 [] input).length < cfgCbsize := by
  constructor
  · rintro ⟨text, houtputs⟩
    by_contra hfull
    have hbuf : (List.replicate cfgCbsize (0 : UInt8)).length = cfgCbsize := List.length_replicate
    obtain ⟨rest, hrun⟩ := houtputs _ hbuf
    have hspec := processMacrosAt_spec getenv hlen hbuf
    rw [if_neg hfull, hrun, Option.some_inj] at hspec
    have hzero : (0 : UInt8) ∈ (expansion getenv .text 0 [] input).take cfgCbsize := by
      rw [← hspec]
      exact List.mem_append_right text List.mem_cons_self
    exact expansion_nulFree hgetenv .text 0 [] hinput 0 (List.mem_of_mem_take hzero) rfl
  · intro hroom
    refine ⟨expansion getenv .text 0 [] input, ?_⟩
    intro output houtput
    have hspec := processMacrosAt_spec getenv hlen houtput
    rwa [if_pos hroom] at hspec

/-- An environment with the one variable `a`, of 253 bytes. -/
def longEnv (name : CStr) : Option CStr :=
  if name = ascii "a" then some (List.replicate 253 0x78) else none

theorem longEnv_nulFree (name : CStr) : ∀ value ∈ longEnv name, NulFree value := by
  intro value hvalue
  rw [longEnv] at hvalue
  split_ifs at hvalue
  · cases hvalue
    intro c hc
    rw [List.eq_of_mem_replicate hc]
    decide
  · cases hvalue

theorem process_macros_terminates_short : Terminates longEnv (ascii "x '$(a'") :=
  (process_macros_terminates_iff longEnv longEnv_nulFree (ascii "x '$(a'") (by decide)
    (by decide)).mpr (by decide)

/-- The value and three more bytes fill the buffer. -/
theorem process_macros_full :
    processMacrosAt longEnv (ascii "$(a)bcd") (List.replicate cfgCbsize 0) =
      some (List.replicate 253 0x78 ++ ascii "bcd") ∧ ¬ Terminates longEnv (ascii "$(a)bcd") := by
  have hrun : processMacrosAt longEnv (ascii "$(a)bcd") (List.replicate cfgCbsize 0) =
      some (List.replicate 253 0x78 ++ ascii "bcd") := by
    decide +kernel
  refine ⟨hrun, ?_⟩
  rintro ⟨text, houtputs⟩
  obtain ⟨rest, hsome⟩ := houtputs _ List.length_replicate
  rw [hrun, Option.some_inj] at hsome
  have hzero : (0 : UInt8) ∈ List.replicate 253 (0x78 : UInt8) ++ ascii "bcd" := by
    rw [hsome]
    exact List.mem_append_right text List.mem_cons_self
  revert hzero
  decide +kernel

/-- The bytes in front of the first closing bracket, and those behind it. -/
def splitClosing : CStr → Option (CStr × CStr)
  | [] => none
  | c :: s =>
    if isClosing c then some ([], s)
    else (splitClosing s).map fun r ↦ (c :: r.1, r.2)

theorem splitClosing_eq {s name rest : CStr} (h : splitClosing s = some (name, rest)) :
    ∃ c, s = name ++ c :: rest := by
  induction s generalizing name with
  | nil => cases h
  | cons c s ih =>
    rw [splitClosing] at h
    split_ifs at h
    · cases h
      exact ⟨c, rfl⟩
    · obtain ⟨r, hr, heq⟩ := Option.map_eq_some_iff.mp h
      obtain ⟨rfl, rfl⟩ := Prod.mk.inj heq
      obtain ⟨x, hx⟩ := ih hr
      exact ⟨x, congrArg (c :: ·) hx⟩

theorem splitClosing_length {s name rest : CStr} (h : splitClosing s = some (name, rest)) :
    rest.length < s.length := by
  obtain ⟨c, rfl⟩ := splitClosing_eq h
  rw [List.length_append, List.length_cons]
  omega

/-- A string with every reference to a variable replaced by its value. -/
def substitute (getenv : CStr → Option CStr) (s : CStr) : CStr :=
  match s with
  | [] => []
  | [c] => [c]
  | c :: d :: s =>
    if c ≠ dollar then c :: substitute getenv (d :: s)
    else if isOpening d then
      match _h : splitClosing s with
      | none => c :: d :: s
      | some (name, rest) => (getenv name).getD [] ++ substitute getenv rest
    else c :: d :: substitute getenv s
termination_by s.length
decreasing_by
  · exact Nat.lt_succ_self _
  · have := splitClosing_length _h
    simp only [List.length_cons]
    omega
  · simp only [List.length_cons]
    omega

/-- What a string ends with when it is cut off behind a `$` or in a reference. -/
def cutOff (s : CStr) : CStr :=
  match s with
  | [] => []
  | [c] => if c = dollar then [c] else []
  | c :: d :: s =>
    if c ≠ dollar then cutOff (d :: s)
    else if isOpening d then
      match _h : splitClosing s with
      | none => c :: d :: s
      | some (_, rest) => cutOff rest
    else cutOff s
termination_by s.length
decreasing_by
  · exact Nat.lt_succ_self _
  · have := splitClosing_length _h
    simp only [List.length_cons]
    omega
  · simp only [List.length_cons]
    omega

/-- Neither a backslash nor a single quote. -/
def Unquoted (s : CStr) : Prop := ∀ c ∈ s, c ≠ backslash ∧ c ≠ quote

instance (s : CStr) : Decidable (Unquoted s) :=
  List.decidableBAll (fun c ↦ c ≠ backslash ∧ c ≠ quote) s

theorem Unquoted.tail {c : UInt8} {s : CStr} (h : Unquoted (c :: s)) : Unquoted s :=
  fun x hx ↦ h x (List.mem_cons_of_mem c hx)

section Expansion

variable (getenv : CStr → Option CStr) {prev c : UInt8} {varname s : CStr}

theorem expansion_step (state : MacroState) (h : Unquoted (c :: s)) :
    expansion getenv state prev varname (c :: s) =
      Macros.emit getenv ⟨state, prev, varname, []⟩ c ++
        expansion getenv (state.next prev c) c (nextName state varname c) s := by
  have hc : ¬ Escapes state prev c := fun hescape ↦ (h c List.mem_cons_self).1 hescape.2.1
  rw [expansion, if_neg hc]

theorem expansion_text (hprev : prev ≠ backslash) (h : Unquoted (c :: s)) :
    expansion getenv .text prev varname (c :: s) =
      if c = dollar then expansion getenv .dollar c [] s
      else c :: expansion getenv .text c [] s := by
  have hquote := (h c List.mem_cons_self).2
  have hdollar : dollar ≠ quote := by decide
  rw [expansion_step getenv .text h]
  by_cases hc : c = dollar
  · simp [Macros.emit, MacroState.next, nextName, hprev, hdollar, hc]
  · simp [Macros.emit, MacroState.next, nextName, hquote, hc]

theorem expansion_dollar (h : Unquoted (c :: s)) :
    expansion getenv .dollar prev varname (c :: s) =
      if isOpening c then expansion getenv .name c [] s
      else dollar :: c :: expansion getenv .text c [] s := by
  rw [expansion_step getenv .dollar h]
  cases hc : isOpening c with
  | false => simp [Macros.emit, MacroState.next, nextName, hc]
  | true => simp [Macros.emit, MacroState.next, nextName, hc]

theorem expansion_open (h : Unquoted s) (hsplit : splitClosing s = none) :
    expansion getenv .name prev varname s = [] := by
  induction s generalizing prev varname with
  | nil => rfl
  | cons c s ih =>
    rw [splitClosing] at hsplit
    split_ifs at hsplit with hc
    rw [Option.map_eq_none_iff] at hsplit
    rw [expansion_step getenv .name h]
    simp only [Macros.emit, MacroState.next, hc, Bool.false_eq_true, if_false, List.nil_append]
    exact ih h.tail hsplit

theorem expansion_name (prev : UInt8) (varname : CStr) (h : Unquoted s) {name rest : CStr}
    (hsplit : splitClosing s = some (name, rest)) :
    Unquoted rest ∧ ∃ prev' varname', prev' ≠ backslash ∧
      expansion getenv .name prev varname s = (getenv (varname ++ name)).getD [] ++
        expansion getenv .text prev' varname' rest := by
  induction s generalizing prev varname name with
  | nil => cases hsplit
  | cons c s ih =>
    rw [splitClosing] at hsplit
    rw [expansion_step getenv .name h]
    split_ifs at hsplit with hc
    · cases hsplit
      refine ⟨h.tail, c, nextName .name varname c, (h c List.mem_cons_self).1, ?_⟩
      simp only [Macros.emit, MacroState.next, hc, if_true, List.append_nil]
    · obtain ⟨r, hr, heq⟩ := Option.map_eq_some_iff.mp hsplit
      obtain ⟨rfl, rfl⟩ := Prod.mk.inj heq
      obtain ⟨hrest, prev', varname', hprev', hname⟩ := ih c (varname ++ [c]) h.tail hr
      refine ⟨hrest, prev', varname', hprev', ?_⟩
      rw [List.append_assoc] at hname
      simp only [Macros.emit, MacroState.next, nextName, hc, if_true, Bool.false_eq_true, if_false]
      exact hname

end Expansion

section CutOff

variable {d : UInt8} {s : CStr}

theorem cutOff_pair (h : isOpening d = false) : cutOff (dollar :: d :: s) = cutOff s := by
  rw [cutOff, if_neg (not_not.mpr rfl), h]
  rfl

variable (h : isOpening d = true)

include h

theorem cutOff_open (hsplit : splitClosing s = none) :
    cutOff (dollar :: d :: s) = dollar :: d :: s := by
  rw [cutOff, if_neg (not_not.mpr rfl), if_pos h]
  split
  · rfl
  · next hsome =>
    rw [hsplit] at hsome
    cases hsome

theorem cutOff_reference {name rest : CStr} (hsplit : splitClosing s = some (name, rest)) :
    cutOff (dollar :: d :: s) = cutOff rest := by
  rw [cutOff, if_neg (not_not.mpr rfl), if_pos h]
  split
  · next hnone =>
    rw [hsplit] at hnone
    cases hnone
  · next hsome =>
    rw [hsplit] at hsome
    cases hsome
    rfl

end CutOff

theorem cutOff_suffix (s : CStr) : cutOff s <:+ s := by
  fun_induction cutOff s with
  | case1 => exact List.suffix_refl []
  | case2 => exact List.suffix_refl _
  | case3 => exact List.nil_suffix
  | case4 c d s hc ih => exact ih.trans (List.suffix_cons c (d :: s))
  | case5 => exact List.suffix_refl _
  | case6 c d s hc hopening name rest hsplit ih =>
    obtain ⟨x, rfl⟩ := splitClosing_eq hsplit
    exact ih.trans ⟨c :: d :: (name ++ [x]), by simp⟩
  | case7 c d s hc hopening ih => exact ih.trans ⟨[c, d], rfl⟩

/-- The expansion is the substitution up to the place where the string is cut off. -/
theorem expansion_append_cutOff (getenv : CStr → Option CStr) {s : CStr} (h : Unquoted s)
    {prev : UInt8} (hprev : prev ≠ backslash) (varname : CStr) :
    expansion getenv .text prev varname s ++ cutOff s = substitute getenv s := by
  fun_induction substitute getenv s generalizing prev varname with
  | case1 => rw [cutOff, expansion, List.append_nil]
  | case2 c =>
    rw [expansion_text getenv hprev h, cutOff]
    split_ifs
    · rfl
    · rfl
  | case3 c d s hc ih =>
    rw [expansion_text getenv hprev h, if_neg hc, cutOff, if_pos hc, List.cons_append,
      ih h.tail (h c List.mem_cons_self).1]
  | case4 c d s hc hopening hsplit =>
    obtain rfl := not_not.mp hc
    rw [expansion_text getenv hprev h, if_pos rfl, expansion_dollar getenv h.tail, if_pos hopening,
      expansion_open getenv h.tail.tail hsplit, cutOff_open hopening hsplit, List.nil_append]
  | case5 c d s hc hopening name rest hsplit ih =>
    obtain rfl := not_not.mp hc
    obtain ⟨hrest, prev', varname', hprev', hname⟩ := expansion_name getenv d [] h.tail.tail hsplit
    rw [expansion_text getenv hprev h, if_pos rfl, expansion_dollar getenv h.tail, if_pos hopening,
      hname, List.append_assoc, cutOff_reference hopening hsplit, ih hrest hprev', List.nil_append]
  | case6 c d s hc hopening ih =>
    obtain rfl := not_not.mp hc
    rw [Bool.not_eq_true] at hopening
    rw [expansion_text getenv hprev h, if_pos rfl, expansion_dollar getenv h.tail, hopening,
      cutOff_pair hopening]
    have hd := (h.tail d List.mem_cons_self).1
    exact congrArg (fun t ↦ dollar :: d :: t) (ih h.tail.tail hd [])

/-- Without backslashes and quotes, and with room for the result, `process_macros` substitutes
exactly in the strings that are not cut off in a reference. -/
theorem process_macros_substitutes_iff (getenv : CStr → Option CStr) (input : CStr)
    (hinput : NulFree input) (hunquoted : Unquoted input)
    (hlen : input.length < cfgCbsize) (hroom : (substitute getenv input).length < cfgCbsize) :
    Outputs getenv input (substitute getenv input) ↔ cutOff input = [] := by
  have hprev : (0 : UInt8) ≠ backslash := by decide
  have happend := expansion_append_cutOff getenv hunquoted hprev []
  have hexpansion : (expansion getenv .text 0 [] input).length < cfgCbsize := by
    rw [← happend, List.length_append] at hroom
    omega
  have hspec : Outputs getenv input (expansion getenv .text 0 [] input) := by
    intro output houtput
    have h := processMacrosAt_spec getenv hlen houtput
    rwa [if_pos hexpansion] at h
  constructor
  · intro houtputs
    have hbuf : (List.replicate cfgCbsize (0 : UInt8)).length = cfgCbsize := List.length_replicate
    obtain ⟨rest, hrun⟩ := houtputs _ hbuf
    obtain ⟨rest', hrun'⟩ := hspec _ hbuf
    rw [hrun, Option.some_inj, ← happend, List.append_assoc] at hrun'
    have hcut := List.append_cancel_left hrun'
    cases hcutOff : cutOff input with
    | nil => rfl
    | cons c cs =>
      rw [hcutOff] at hcut
      have hmem : c ∈ cutOff input := hcutOff ▸ List.mem_cons_self
      exact absurd (List.cons.inj hcut).1 (hinput c ((cutOff_suffix input).mem hmem))
  · intro hcut
    rw [hcut, List.append_nil] at happend
    rwa [← happend]

/-- The one variable `b`. -/
def shortEnv (name : CStr) : Option CStr := if name = ascii "b" then some (ascii "xy") else none

theorem process_macros_substitutes_two : Outputs shortEnv (ascii "a$(b\x7d$c") (ascii "axy$c") := by
  have hvalue : substitute shortEnv (ascii "a$(b\x7d$c") = ascii "axy$c" := by decide +kernel
  have hiff := process_macros_substitutes_iff shortEnv (ascii "a$(b\x7d$c") (by decide) (by decide)
    (by decide) (by rw [hvalue]; decide)
  rw [← hvalue]
  exact hiff.mpr (by decide +kernel)

/-- A dollar at the end, and a reference without a closing bracket, are lost. -/
theorem process_macros_cut_off :
    substitute shortEnv (ascii "a$") = ascii "a$" ∧
      ¬ Outputs shortEnv (ascii "a$") (substitute shortEnv (ascii "a$")) ∧
      substitute shortEnv (ascii "a$(b") = ascii "a$(b" ∧
      ¬ Outputs shortEnv (ascii "a$(b") (substitute shortEnv (ascii "a$(b")) := by
  have hdollar : substitute shortEnv (ascii "a$") = ascii "a$" := by decide +kernel
  have hopen : substitute shortEnv (ascii "a$(b") = ascii "a$(b" := by decide +kernel
  have hrun : (processMacrosAt shortEnv (ascii "a$") (List.replicate cfgCbsize 1)).map (·.take 2) =
      some [0x61, 0] := by
    decide +kernel
  have hrun' : (processMacrosAt shortEnv (ascii "a$(b") (List.replicate cfgCbsize 1)).map
      (·.take 2) = some [0x61, 0] := by
    decide +kernel
  refine ⟨hdollar, ?_, hopen, ?_⟩
  · intro houtputs
    obtain ⟨rest, hsome⟩ := houtputs _ List.length_replicate
    rw [hsome, hdollar] at hrun
    cases hrun
  · intro houtputs
    obtain ⟨rest, hsome⟩ := houtputs _ List.length_replicate
    rw [hsome, hopen] at hrun'
    cases hrun'

end UBoot.Common.ProcessMacros
