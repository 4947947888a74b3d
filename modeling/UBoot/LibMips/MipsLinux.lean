import UBoot.Lib.Memory
import UBoot.LibGeneric.Vsprintf

namespace UBoot.LibMips.MipsLinux

open Lib.CString Lib.Memory LibGeneric.Vsprintf

def linuxMaxEnvs : ℕ := 256

def linuxMaxArgs : ℕ := 256

/-- The chip of the build. A chip of the AR7240 family is a Python or a Virian. -/
inductive Soc
  | ar7100 | ar9100 | ar7240 (virian : Bool)
deriving DecidableEq

/-- Whether `linux_params_init` adds the size of the memory. -/
def Soc.addsMem : Soc → Bool
  | .ar7100 => false
  | .ar9100 | .ar7240 _ => true

/-- A store into the table `linux_argv` or `linux_env`, or of a text. -/
inductive Write
  | argv (table index value : ℕ)
  | env (table index value : ℕ)
  | text (addr : ℕ) (bs : List UInt8)

/-- The static variables, `argp`, and the stores so far. -/
structure Params where
  linuxArgc : ℕ
  linuxArgv : ℕ
  argp : ℕ
  linuxEnv : ℕ
  linuxEnvP : ℕ
  linuxEnvIdx : ℕ
  writes : List Write

def Write.apply (m : Mem) : Write → Mem
  | .argv table index value | .env table index value => store m (table + 4 * index) (be32 value)
  | .text addr bs => store m addr bs

/-- The memory behind the stores. -/
def Params.mem (m : Mem) (s : Params) : Mem := s.writes.foldl Write.apply m

def blank : UInt8 := 0x20

def quotationMark : UInt8 := 0x22

/-- `strchr (line + p, c)` as the distance from `line`. -/
def strchrFrom (line : CStr) (p : ℕ) (c : UInt8) : Option ℕ := (strchr (line.drop p) c).map (p + ·)

/-- The loop that looks for a blank outside of quotes, as the distance `next - line`. A turn moves on
by a character at least, so that `fuel` is not used up. -/
def skipQuoted (line : CStr) : ℕ → Option ℕ → Option ℕ → Option ℕ
  | fuel + 1, some quote, some next =>
    if quote < next then
      match strchrFrom line (quote + 1) quotationMark with
      | none => none
      | some right =>
        skipQuoted line fuel (strchrFrom line (right + 1) quotationMark)
          (strchrFrom line (right + 1) blank)
    else some next
  | _, _, next => next

/-- `next - line` behind that loop. -/
def nextBlank (line : CStr) : ℕ :=
  (skipQuoted line (line.length + 1) (strchr line quotationMark) (strchr line blank)).getD line.length

def revstr : CStr := ascii "REVISIONID"

/-- The text that is stored over an argument. -/
def revision : Soc → CStr → Option CStr
  | .ar7240 virian, argp =>
    if argp = revstr then some (if virian then ascii "virian" else ascii "python") else none
  | _, _ => none

/-- One turn of the loop, with the piece from `line` to `next`. -/
def addArg (soc : Soc) (s : Params) (piece : CStr) : Params :=
  { s with
    linuxArgc := s.linuxArgc + 1
    argp := s.argp + piece.length + 1
    writes := s.writes ++ [.argv s.linuxArgv s.linuxArgc s.argp, .text s.argp (piece ++ [0])] ++
      ((revision soc piece).map fun name ↦ .text s.argp (name ++ [0])).toList }

/-- The loop over the line, with room for so many arguments. -/
def argLoop (soc : Soc) : ℕ → CStr → Params → Params
  | 0, _, s => s
  | room + 1, line, s =>
    if line = [] then s
    else
      let next := nextBlank line
      argLoop soc room (line.drop (next + 1)) (addArg soc s (line.take next))

/-- `memstr`, from the size of the memory in bytes. -/
def memstr (ramSize : ℕ) : CStr := ascii "mem=" ++ numberDec (ramSize / 1048576) ++ ascii "M"

def addMem (ramSize : ℕ) (s : Params) : Params :=
  { s with
    linuxArgc := s.linuxArgc + 1
    argp := s.argp + (memstr ramSize).length + 1
    writes := s.writes ++
      [.text s.argp (memstr ramSize ++ [0]), .argv s.linuxArgv s.linuxArgc s.argp] }

/-- The end of `linux_params_init`. -/
def initEnv (s : Params) : Params :=
  let linuxEnv := (s.argp + 15) / 16 * 16
  { s with
    linuxEnv := linuxEnv
    linuxEnvP := linuxEnv + 4 * linuxMaxEnvs
    linuxEnvIdx := 0
    writes := s.writes ++ [.env linuxEnv 0 0] }

/-- `linux_params_init`; `none` when `strstr` reads through a null pointer. -/
def linuxParamsInit (soc : Soc) (ramSize start : ℕ) (line : Option CStr) : Option Params :=
  line.map fun line ↦
    let s := argLoop soc (linuxMaxArgs - 1) line
      ⟨1, start, start + 4 * linuxMaxArgs, 0, 0, 0, [.argv start 0 0]⟩
    initEnv (if soc.addsMem && !contains line (ascii "mem=") then addMem ramSize s else s)

def linuxEnvSet (s : Params) (envName envVal : CStr) : Params :=
  if s.linuxEnvIdx < linuxMaxEnvs - 1 then
    { s with
      linuxEnvP := s.linuxEnvP + envName.length + 1 + envVal.length + 1
      linuxEnvIdx := s.linuxEnvIdx + 1
      writes := s.writes ++ [.env s.linuxEnv s.linuxEnvIdx s.linuxEnvP,
        .text s.linuxEnvP (envName ++ [0]),
        .text (s.linuxEnvP + envName.length) [0x3d, 0],
        .text (s.linuxEnvP + envName.length + 1) (envVal ++ [0]),
        .env s.linuxEnv (s.linuxEnvIdx + 1) 0] }
  else s

/-- What `do_bootm_linux` tells the kernel about the board and the ramdisk. -/
structure BootInfo where
  ramSize : ℕ
  initrdStart : UInt32
  initrdEnd : UInt32
  flashStart : UInt32
  flashSize : UInt32

/-- `UNCACHED_SDRAM`: the address in the uncached segment. -/
def uncachedSdram (a : UInt32) : UInt32 := a &&& 0x1fffffff ||| 0xa0000000

/-- The variables that `do_bootm_linux` sets, with `memsize` in megabytes. -/
def bootEnv (b : BootInfo) : List (CStr × CStr) :=
  [(ascii "memsize", numberDec (b.ramSize / 1048576)),
    (ascii "initrd_start", ascii "0x" ++ numberHex 8 (uncachedSdram b.initrdStart).toNat),
    (ascii "initrd_size", ascii "0x" ++ numberHex 0 (b.initrdEnd - b.initrdStart).toNat),
    (ascii "flash_start", ascii "0x" ++ numberHex 8 b.flashStart.toNat),
    (ascii "flash_size", ascii "0x" ++ numberHex 0 b.flashSize.toNat)]

/-- The parameters that `do_bootm_linux` gives to the kernel. -/
def bootParams (soc : Soc) (b : BootInfo) (start : ℕ) (bootargs : Option CStr) : Option Params :=
  (linuxParamsInit soc b.ramSize start bootargs).map fun s ↦
    (bootEnv b).foldl (fun s v ↦ linuxEnvSet s v.1 v.2) s

end UBoot.LibMips.MipsLinux
