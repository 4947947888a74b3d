import Mathlib.Logic.Function.Basic
import UBoot.Env.EnvFlash
import UBoot.Lib.PowerFail

namespace UBoot.Env.EnvFlashRedund

open Lib.NorFlash Lib.PowerFail EnvFlash LibGeneric.Crc32

/-- The sectors at `CFG_ENV_ADDR` and at `CFG_ENV_ADDR_REDUND`. -/
inductive Side
  | primary
  | redund
deriving DecidableEq

def Side.other : Side → Side
  | primary => redund
  | redund => primary

/-- A sector: the fields of `env_t` and what lies behind `CFG_ENV_SIZE`. -/
structure Sector where
  crc : List UInt8
  flags : UInt8
  data : List UInt8
  rest : List UInt8
deriving DecidableEq

abbrev Flash := Side → Sector

def activeFlag : UInt8 := 1

def obsoleteFlag : UInt8 := 0

/-- The test of both `env_init` and `env_relocate_spec`. -/
def Sector.crcOk (s : Sector) : Bool := crc32 0 s.data == ofBe32 s.crc

inductive Op
  | erase (s : Side)
  | writeData (s : Side) (buf : List UInt8)
  | writeCrc (s : Side) (buf : List UInt8)
  | writeFlags (s : Side) (flag : UInt8)
  | writeRest (s : Side) (buf : List UInt8)

def Op.run : Op → Flash → Flash
  | erase s, f => Function.update f s
    ⟨Lib.NorFlash.erase (f s).crc, 0xff, Lib.NorFlash.erase (f s).data,
      Lib.NorFlash.erase (f s).rest⟩
  | writeData s buf, f => Function.update f s { f s with data := program (f s).data buf }
  | writeCrc s buf, f => Function.update f s { f s with crc := program (f s).crc buf }
  | writeFlags s flag, f => Function.update f s { f s with flags := (f s).flags &&& flag }
  | writeRest s buf, f => Function.update f s { f s with rest := program (f s).rest buf }

/-- A write that is cut has written the first bytes of its buffer; an erase is atomic. -/
def Op.torn : Op → Flash → Flash → Prop
  | erase _, _, _ => False
  | writeData s buf, f, f' => ∃ k, f' = (writeData s (buf.take k)).run f
  | writeCrc s buf, f, f' => ∃ k, f' = (writeCrc s (buf.take k)).run f
  | writeFlags _ _, _, _ => False
  | writeRest s buf, f, f' => ∃ k, f' = (writeRest s (buf.take k)).run f

/-- `env_t` in RAM. -/
structure EnvT where
  crc : UInt32
  flags : UInt8
  data : List UInt8
deriving DecidableEq

/-- The state of the running boot loader. The role of `flash_addr_new` has the other sector. -/
structure Ram where
  env_valid : ℕ
  flash_addr : Side
  env : EnvT
deriving DecidableEq

/-- `gd->env_valid` and `gd->env_addr`; `none` is the default environment. -/
structure Selected where
  env_valid : ℕ
  env_addr : Option Side
deriving DecidableEq

def envInit (f : Flash) : Selected :=
  let crc1_ok := (f .primary).crcOk
  let crc2_ok := (f .redund).crcOk
  let flag1 := (f .primary).flags
  let flag2 := (f .redund).flags
  if crc1_ok && !crc2_ok then ⟨1, some .primary⟩
  else if !crc1_ok && crc2_ok then ⟨1, some .redund⟩
  else if !crc1_ok && !crc2_ok then ⟨0, none⟩
  else if flag1 = activeFlag ∧ flag2 = obsoleteFlag then ⟨1, some .primary⟩
  else if flag1 = obsoleteFlag ∧ flag2 = activeFlag then ⟨1, some .redund⟩
  else if flag1 = flag2 then ⟨2, some .primary⟩
  else if flag1 = 0xff then ⟨2, some .primary⟩
  else if flag2 = 0xff then ⟨2, some .redund⟩
  -- no branch of the source is taken and `gd` keeps its zeros
  else ⟨0, none⟩

/-- The first repair of `env_relocate_spec`: a valid copy that was not taken is obsolete. -/
def obsoleteOps (flash_addr : Side) (f : Flash) : List Op :=
  if (f flash_addr.other).flags ≠ obsoleteFlag ∧ (f flash_addr.other).crcOk then
    [.writeFlags flash_addr.other obsoleteFlag] else []

/-- The second repair: the copy that was taken is active. -/
def activateOps (flash_addr : Side) (f : Flash) : List Op :=
  if (f flash_addr).flags ≠ activeFlag ∧ (f flash_addr).flags &&& activeFlag = activeFlag then
    [.writeFlags flash_addr activeFlag] else []

def relocateOps (flash_addr : Side) (f : Flash) : List Op :=
  obsoleteOps flash_addr f ++ activateOps flash_addr f

/-- `env_relocate_spec` without a power failure. -/
def envRelocateSpec (env_valid : ℕ) (flash_addr : Side) (f : Flash) : Flash × Ram :=
  let f' := runAll Op.run (relocateOps flash_addr f) f
  (f', { env_valid := if (relocateOps flash_addr f).isEmpty then env_valid else 2
         flash_addr := flash_addr
         env := ⟨ofBe32 (f' flash_addr).crc, (f' flash_addr).flags, (f' flash_addr).data⟩ })

/-- `env_relocate` when no copy is valid; `envSize` is `ENV_SIZE`. -/
def useDefault (defaultEnvironment : List UInt8) (envSize : ℕ) : Ram :=
  let data := defaultEnvironment ++ List.replicate (envSize - defaultEnvironment.length) 0
  ⟨1, .primary, ⟨crc32 0 data, 0xff, data⟩⟩

/-- `env_init` followed by `env_relocate`. -/
def boot (defaultEnvironment : List UInt8) (envSize : ℕ) (f : Flash) : Flash × Ram :=
  match envInit f with
  | ⟨0, _⟩ | ⟨_, none⟩ => (f, useDefault defaultEnvironment envSize)
  | ⟨env_valid, some flash_addr⟩ => envRelocateSpec env_valid flash_addr f

/-- The flash operations of `saveenv`; the rest of the spare sector was read before its erase. -/
def saveenvOps (r : Ram) (f : Flash) : List Op :=
  [.erase r.flash_addr.other,
    .writeData r.flash_addr.other r.env.data,
    .writeCrc r.flash_addr.other (be32 r.env.crc),
    .writeFlags r.flash_addr obsoleteFlag,
    .writeFlags r.flash_addr.other activeFlag,
    .writeRest r.flash_addr.other (f r.flash_addr.other).rest]

/-- `saveenv` without a power failure. -/
def saveenv (r : Ram) (f : Flash) : Flash × Ram :=
  (runAll Op.run (saveenvOps r f) f, { r with flash_addr := r.flash_addr.other })

end UBoot.Env.EnvFlashRedund
