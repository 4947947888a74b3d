import UBoot.Env.Layout
import UBoot.LibGeneric.Crc32
import UBoot.LibGeneric.Vsprintf

namespace UBoot.Env.Nvedit

open Lib.CString Layout LibGeneric.Crc32 LibGeneric.Vsprintf

/-- `env_t` of the build without a redundant copy. -/
structure EnvT where
  crc : UInt32
  data : List UInt8
deriving DecidableEq

/-- The RAM environment and the variables `_do_setenv` keeps in step with it. -/
structure Globals where
  env : EnvT
  baudrate : UInt32
  bi_enetaddr : List UInt8
  bi_ip_addr : UInt32
  load_addr : UInt32
  bootFile : CStr
deriving DecidableEq

/-- `sizeof(unsigned long)`, the header in front of the data. -/
def envHeaderSize : ℕ := 4

def envCrcUpdate (g : Globals) : Globals :=
  { g with env := { g.env with crc := crc32 0 g.env.data } }

def Globals.withData (g : Globals) (d : List UInt8) : Globals :=
  { g with env := { g.env with data := d } }

/-- Match a name against the entry at `i2`: `some (some v)` is the index of its value, `some none`
the result `-1`, and `none` a read outside `s1` or outside the data. -/
def envmatch (d : List UInt8) : CStr → ℕ → Option (Option ℕ)
  | [], i2 => d[i2]?.bind fun c ↦
    if c = 0 then none else if c = eqSign then some (some (i2 + 1)) else some none
  | a :: s1, i2 => d[i2]?.bind fun c ↦
    if a = c then if a = eqSign then some (some (i2 + 1)) else envmatch d s1 (i2 + 1)
    else some none

/-- The inner loop of `getenv`; `some none` is its `return NULL` at `CFG_ENV_SIZE`. -/
def entryEnd (cfgEnvSize : ℕ) : List UInt8 → ℕ → Option (Option ℕ)
  | [], _ => none
  | c :: cs, nxt =>
    if c = 0 then some (some nxt)
    else if cfgEnvSize ≤ nxt then some none else entryEnd cfgEnvSize cs (nxt + 1)

def getenvFrom (d : List UInt8) (name : CStr) : ℕ → ℕ → Option (Option CStr)
  | 0, _ => none
  | fuel + 1, i => d[i]?.bind fun c ↦
    if c = 0 then some none
    else (entryEnd (d.length + envHeaderSize) (d.drop i) i).bind fun
      | none => some none
      | some nxt => (envmatch d name i).bind fun
        | none => getenvFrom d name fuel (nxt + 1)
        | some val => (load (d.drop val)).map some

/-- The string `getenv` points to; `some none` is `NULL`. -/
def getenv (g : Globals) (name : CStr) : Option (Option CStr) :=
  getenvFrom g.env.data name (g.env.data.length + 1) 0

structure Found where
  env : ℕ
  nxt : ℕ
  oldval : Option ℕ

/-- The search of `_do_setenv` for an existing definition. -/
def search (d : List UInt8) (name : CStr) : ℕ → ℕ → ℕ → Option Found
  | 0, _, _ => none
  | fuel + 1, env, nxt => d[env]?.bind fun c ↦
    if c = 0 then some ⟨env, nxt, none⟩
    else (strlen (d.drop env)).bind fun n ↦ (envmatch d name env).bind fun
      | some oldval => some ⟨env, env + n, some oldval⟩
      | none => search d name fuel (env + n + 1) (env + n)

/-- The overlapping copy of everything behind the deleted entry, up to the double NUL. -/
def shiftDown : ℕ → List UInt8 → ℕ → ℕ → Option (List UInt8 × ℕ)
  | 0, _, _, _ => none
  | fuel + 1, d, env, nxt => d[nxt]?.bind fun c ↦ (poke d env c).bind fun d' ↦
    if c = 0 then d'[nxt + 1]?.bind fun c' ↦
      if c' = 0 then some (d', env) else shiftDown fuel d' (env + 1) (nxt + 1)
    else shiftDown fuel d' (env + 1) (nxt + 1)

def deleteEntry (d : List UInt8) (env nxt : ℕ) : Option (List UInt8) :=
  d[nxt + 1]?.bind fun c ↦
    (if c = 0 then if 0 < env then some (d, env - 1) else (poke d env 0).map (·, env)
      else shiftDown d.length d env (nxt + 1)).bind fun (d', env') ↦ poke d' (env' + 1) 0

/-- `for (env = env_data; *env || *(env + 1); ++env);` -/
def endScan : List UInt8 → Option ℕ
  | a :: b :: rest => if a ≠ 0 ∨ b ≠ 0 then (endScan (b :: rest)).map (· + 1) else some 0
  | _ => none

/-- `name=arg arg ...` with its double NUL; an argument that is `NULL` is outside any object. -/
def entryLen (name : CStr) : List (Option CStr) → Option ℕ
  | [] => some (name.length + 2)
  | arg :: args => arg.bind fun val ↦ (entryLen name args).map (· + (val.length + 1))

def storeArgs (d : List UInt8) (env : ℕ) (sep : UInt8) :
    List (Option CStr) → Option (List UInt8 × ℕ)
  | [] => some (d, env)
  | arg :: args => arg.bind fun val ↦ (poke d env sep).bind fun d' ↦
    (store d' (env + 1) val).bind fun (d'', env') ↦ storeArgs d'' env' 0x20 args

/-- Append the new definition; `some none` is the overflow return. -/
def append (d : List UInt8) (name : CStr) (args : List (Option CStr)) :
    Option (Option (List UInt8)) :=
  (endScan d).bind fun e ↦ (entryLen name args).bind fun len ↦
    let env := if 0 < e then e + 1 else e
    if d.length < env + len then some none
    else (store d env name).bind fun (d', env') ↦ (storeArgs d' env' eqSign args).bind fun
      (d'', env'') ↦ (poke d'' (env'' + 1) 0).map some

/-- `stdin`, `stdout` and `stderr`. -/
def consoleOf (name : CStr) : Option ℕ :=
  if name = ascii "stdin" then some 0
  else if name = ascii "stdout" then some 1
  else if name = ascii "stderr" then some 2 else none

def baudrateTable : List UInt32 := [115200]

/-- May the definition that was found be replaced? `some none` is `return 1`. The switch of the
serial line to the new rate waits for the console and leaves the environment alone. -/
def permit (consoleAssign : ℕ → CStr → Bool) (g : Globals) (name : CStr)
    (args : List (Option CStr)) : Option (Option Globals) :=
  if name = ascii "serial#" ∨ name = ascii "ethaddr" then some none
  else match consoleOf name with
    | some console => match args with
      | [] => some none
      | arg :: _ => arg.map fun dev ↦ if consoleAssign console dev then some g else none
    | none =>
      if name = ascii "baudrate" then (args.headD none).map fun text ↦
        let rate := (simpleStrtoul text 10).1
        if rate ∈ baudrateTable then some { g with baudrate := rate } else none
      else some (some g)

/-- Numbers read one after another, each from behind the separator that ended the last one. -/
def parseNumbers (base : ℕ) : ℕ → CStr → List UInt32
  | 0, _ => []
  | n + 1, s => (simpleStrtoul s base).1 :: parseNumbers base n ((simpleStrtoul s base).2.drop 1)

def copyFilename (src : CStr) (size : ℕ) : CStr :=
  if first src = 0x22 then ((src.drop 1).take (size - 2)).takeWhile (· != 0x22)
  else (src.take (size - 1)).takeWhile (· != 0x22)

/-- The variables kept in step with the new definition. -/
def updateCaches (g : Globals) (name arg : CStr) : Globals :=
  if name = ascii "ethaddr" then
    { g with bi_enetaddr := (parseNumbers 16 6 arg).map UInt32.toUInt8 }
  else if name = ascii "ipaddr" then
    { g with bi_ip_addr := (parseNumbers 10 4 arg).foldl (fun a v ↦ (a <<< 8) ||| (v &&& 0xff)) 0 }
  else if name = ascii "loadaddr" then { g with load_addr := (simpleStrtoul arg 16).1 }
  else if name = ascii "bootfile" then { g with bootFile := copyFilename arg 128 }
  else g

/-- The part of `_do_setenv` behind the deletion. -/
def define (g : Globals) (name : CStr) (args : List (Option CStr)) : Option (ℕ × Globals) :=
  match args with
  | [] | none :: _ => some (0, envCrcUpdate g)
  | some arg :: rest => (append g.env.data name (some arg :: rest)).map fun
    | none => (1, g)
    | some d => (0, updateCaches (envCrcUpdate (g.withData d)) name arg)

/-- `_do_setenv(flag, argc, argv)` with `argv[1] = name` and `args` the pointers behind it, so that
`argc = args.length + 2`. `none` is an access outside the data or through `NULL`. -/
def doSetenv (consoleAssign : ℕ → CStr → Bool) (g : Globals) (name : CStr)
    (args : List (Option CStr)) : Option (ℕ × Globals) :=
  (search g.env.data name (g.env.data.length + 1) 0 0).bind fun found ↦
    match found.oldval with
    | none => define g name args
    | some _ => (permit consoleAssign g name args).bind fun
      | none => some (1, g)
      | some g' => (deleteEntry g.env.data found.env found.nxt).bind fun d ↦
        define (g'.withData d) name args

end UBoot.Env.Nvedit
