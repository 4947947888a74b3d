import Mathlib.Data.Int.Basic
import UBoot.Lib.CString

namespace UBoot.Common.Main

open Lib.CString

def cfgCbsize : ℕ := 256

def cfgMaxargs : ℕ := 16

def cmdFlagBootd : ℕ := 2

def quote : UInt8 := 0x27

def backslash : UInt8 := 0x5c

def semicolon : UInt8 := 0x3b

def dollar : UInt8 := 0x24

def isBlank (c : UInt8) : Bool := c == 0x20 || c == 0x09

/-- The variable `state` of `process_macros`. -/
inductive MacroState
  /-- 0, waiting for `$` -/
  | text
  /-- 1, waiting for `(` or `{` -/
  | dollar
  /-- 2, waiting for `)` or `}` -/
  | name
  /-- 3, waiting for a single quote -/
  | quoted
deriving DecidableEq

def isOpening (c : UInt8) : Bool := c == 0x28 || c == 0x7b

def isClosing (c : UInt8) : Bool := c == 0x29 || c == 0x7d

/-- The `switch` of `process_macros` as far as `state` is concerned. -/
def MacroState.next (state : MacroState) (prev c : UInt8) : MacroState :=
  match state with
  | .text =>
    if c = quote ∧ prev ≠ backslash then .quoted
    else if c = Main.dollar ∧ prev ≠ backslash then .dollar else .text
  | .dollar => if isOpening c then .name else .text
  | .name => if isClosing c then .text else .name
  | .quoted => if c = quote ∧ prev ≠ backslash then .text else .quoted

/-- An unescaped backslash, which is dropped. -/
def Escapes (state : MacroState) (prev c : UInt8) : Prop :=
  state ≠ .quoted ∧ c = backslash ∧ prev ≠ backslash

instance (state : MacroState) (prev c : UInt8) : Decidable (Escapes state prev c) :=
  inferInstanceAs (Decidable (_ ∧ _ ∧ _))

/-- The variables of the loop of `process_macros`; `varname` are the bytes from `varname_start`
up to `input`. -/
structure Macros where
  state : MacroState
  prev : UInt8
  varname : CStr
  out : CStr

/-- What the `switch` adds to the output. -/
def Macros.emit (getenv : CStr → Option CStr) (m : Macros) (c : UInt8) : CStr :=
  match m.state with
  | .text =>
    if (c = quote ∨ c = dollar) ∧ m.prev ≠ backslash then [] else [c]
  | .dollar => if isOpening c then [] else [dollar, c]
  | .name => if isClosing c then (getenv m.varname).getD [] else []
  | .quoted => if c = quote ∧ m.prev ≠ backslash then [] else [c]

/-- The `switch` and `prev = c`. The output ends where `outputcnt` is used up. -/
def Macros.switch (getenv : CStr → Option CStr) (m : Macros) (c : UInt8) : Macros where
  state := m.state.next m.prev c
  prev := c
  varname := if m.state = .name then m.varname ++ [c] else []
  out := (m.out ++ m.emit getenv c).take cfgCbsize

/-- The loop of `process_macros`. The source takes the character behind an escaping backslash in
the same turn; here it has a turn of its own, in which `prev` keeps it from being an escape. -/
def macroLoop (getenv : CStr → Option CStr) (m : Macros) : CStr → Macros
  | [] => m
  | c :: input =>
    if m.out.length = cfgCbsize then m
    else if Escapes m.state m.prev c then
      macroLoop getenv { m with prev := c, varname := m.varname ++ [c] } input
    else macroLoop getenv (m.switch getenv c) input

/-- The bytes that `process_macros` stores in `output`. -/
def processMacros (getenv : CStr → Option CStr) (input : CStr) : CStr :=
  (macroLoop getenv ⟨.text, 0, [], []⟩ input).out

/-- The string at `finaltoken` after `process_macros`. A full buffer has no terminator, and the
string goes on with the bytes that are `behind` it. -/
def finalToken (getenv : CStr → Option CStr) (behind token : CStr) : CStr :=
  let out := processMacros getenv token
  if out.length < cfgCbsize then out else out ++ behind

/-- `parse_line` with room for `n` more words: the words and whether `argv` gets its `NULL`. -/
def parseLine : ℕ → CStr → List CStr × Bool
  | 0, _ => ([], false)
  | n + 1, line =>
    let line := line.dropWhile isBlank
    if line = [] then ([], true)
    else
      let word := line.takeWhile fun c ↦ !isBlank c
      match line.dropWhile fun c ↦ !isBlank c with
      | [] => ([word], true)
      | _ :: rest => (word :: (parseLine n rest).1, (parseLine n rest).2)

section RunCommand

variable {σ : Type}

/-- `cmd_tbl_t`; `cmd` gets the flag, the words and whether a `NULL` follows them, and gives back
the state of the board. -/
structure CmdTbl (σ : Type) where
  name : CStr
  maxargs : ℤ
  repeatable : ℕ
  isBootd : Bool
  cmd : σ → ℕ → List CStr → Bool → ℤ × σ

/-- What `run_command` uses of the rest of U-Boot. -/
structure Board (σ : Type) where
  table : List (CmdTbl σ)
  getenv : σ → CStr → Option CStr
  clearCtrlc : σ → σ
  hadCtrlc : σ → Bool

def findCmd (table : List (CmdTbl σ)) (cmd : CStr) : Option (CmdTbl σ) :=
  let word := cmd.takeWhile (· != 0x2e)
  match table.find? fun e ↦ e.name == word with
  | some e => some e
  | none =>
    match table.filter fun e ↦ word.isPrefixOf e.name with
    | [e] => some e
    | _ => none

/-- `inquotes` behind the byte at `sep`; `before` is `*(sep - 1)`. -/
def toggle (before c : UInt8) (inquotes : Bool) : Bool :=
  if c = quote ∧ before ≠ backslash then !inquotes else inquotes

/-- The test for a separator. -/
def IsSep (before : UInt8) (atStart inquotes : Bool) (c : UInt8) : Prop :=
  inquotes = false ∧ c = semicolon ∧ atStart = false ∧ before ≠ backslash

instance (before : UInt8) (atStart inquotes : Bool) (c : UInt8) :
    Decidable (IsSep before atStart inquotes c) := inferInstanceAs (Decidable (_ ∧ _ ∧ _ ∧ _))

/-- The `for` loop that looks for a separator, as the distance `sep - str`. -/
def findSep (before : UInt8) (atStart inquotes : Bool) : CStr → ℕ
  | [] => 0
  | c :: cs =>
    if IsSep before atStart (toggle before c inquotes) c then 0
    else findSep c false (toggle before c inquotes) cs + 1

/-- The tokens of `cmdbuf`; a separator is overwritten by a NUL, which is then the byte in front of
the next token. -/
def tokens : ℕ → UInt8 → CStr → List CStr
  | 0, _, _ => []
  | fuel + 1, before, str =>
    if str = [] then []
    else
      let sep := findSep before true false str
      str.take sep :: tokens fuel 0 (str.drop (sep + 1))

/-- The checks in front of the call: the command to call, with the flag and the arguments. -/
def dispatch (b : Board σ) (flag : ℕ) (line : CStr) : Option (CmdTbl σ × ℕ × List CStr × Bool) :=
  let argv := parseLine cfgMaxargs line
  match argv.1 with
  | [] => none
  | word :: _ =>
    match findCmd b.table word with
    | none => none
    | some e =>
      if e.maxargs < argv.1.length then none
      else if e.isBootd then
        if flag &&& cmdFlagBootd ≠ 0 then none else some (e, flag ||| cmdFlagBootd, argv)
      else some (e, flag, argv)

/-- One turn of the loop: the line after `process_macros`, the flag in front of it, the command
function that was called, and `had_ctrlc()` behind it. -/
structure Turn (σ : Type) where
  line : CStr
  flag : ℕ
  called : Option (CmdTbl σ)
  stopped : Bool

/-- The variables of the loop. -/
structure Loop (σ : Type) where
  board : σ
  flag : ℕ
  repeatable : ℕ
  rc : ℤ

/-- The loop over the tokens; `behind k` is the string that follows `finaltoken` in memory in turn
`k`. -/
def runTokens (b : Board σ) (behind : ℕ → CStr) :
    ℕ → Loop σ → List CStr → ℤ × σ × List (Turn σ)
  | _, l, [] => (if l.rc ≠ 0 then l.rc else l.repeatable, l.board, [])
  | k, l, token :: rest =>
    let line := finalToken (b.getenv l.board) (behind k) token
    match dispatch b l.flag line with
    | none =>
      let r := runTokens b behind (k + 1) { l with rc := -1 } rest
      (r.1, r.2.1, ⟨line, l.flag, none, false⟩ :: r.2.2)
    | some (e, flag, argv) =>
      let (ret, board) := e.cmd l.board flag argv.1 argv.2
      if b.hadCtrlc board then (0, board, [⟨line, l.flag, some e, true⟩])
      else
        let r := runTokens b behind (k + 1)
          { board, flag, repeatable := l.repeatable &&& e.repeatable,
            rc := if ret ≠ 0 then -1 else l.rc } rest
        (r.1, r.2.1, ⟨line, l.flag, some e, false⟩ :: r.2.2)

/-- `run_command`; `before` is the byte in front of `cmdbuf` on the stack, and the last component
are the turns of the loop. -/
def runCommand (b : Board σ) (before : UInt8) (behind : ℕ → CStr) (st : σ) (cmd : Option CStr)
    (flag : ℕ) : ℤ × σ × List (Turn σ) :=
  let st := b.clearCtrlc st
  match cmd with
  | none => (-1, st, [])
  | some cmd =>
    if cmd = [] then (-1, st, [])
    else if cfgCbsize ≤ cmd.length then (-1, st, [])
    else runTokens b behind 0 ⟨st, flag, 1, 0⟩ (tokens cmd.length before cmd)

end RunCommand

end UBoot.Common.Main
