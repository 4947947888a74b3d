import UBoot.Env.Nvedit
import UBoot.Lib.NorFlash

namespace UBoot.Env.EnvFlash

open Nvedit Lib.NorFlash LibGeneric.Crc32

/-- An `unsigned long` in the byte order of the processor. -/
def be32 (x : UInt32) : List UInt8 :=
  [(x >>> 24).toUInt8, (x >>> 16).toUInt8, (x >>> 8).toUInt8, x.toUInt8]

def ofBe32 (l : List UInt8) : UInt32 := UInt32.ofNat (l.foldl (fun a b ↦ 256 * a + b.toNat) 0)

@[simp] theorem be32_length (x : UInt32) : (be32 x).length = 4 := rfl

@[simp] theorem ofBe32_be32 (x : UInt32) : ofBe32 (be32 x) = x := by
  apply UInt32.toNat_inj.mp
  have := x.toNat_lt
  simp only [ofBe32, be32, List.foldl_cons, List.foldl_nil, UInt32.toNat_ofNat',
    UInt32.toNat_toUInt8, UInt32.toNat_shiftRight, UInt32.reduceToNat, Nat.reduceMod,
    Nat.shiftRight_eq_div_pow]
  omega

def envBytes (e : EnvT) : List UInt8 := be32 e.crc ++ e.data

def envOfBytes (b : List UInt8) : EnvT := ⟨ofBe32 (b.take 4), b.drop 4⟩

theorem envOfBytes_envBytes (e : EnvT) : envOfBytes (envBytes e) = e := by
  rw [envOfBytes, envBytes, List.take_left' (be32_length _), List.drop_left' (be32_length _),
    ofBe32_be32]

/-- What a boot uses: `gd->env_valid` and the data at `gd->env_addr`. -/
structure Selected where
  env_valid : ℕ
  data : List UInt8

variable (defaultEnvironment : List UInt8) (flashOffset : ℕ)

/-- `env_init` without a redundant copy; the environment lies at `flashOffset` in its sector. -/
def envInit (cfgEnvSize : ℕ) (sector : List UInt8) : Selected :=
  let env := envOfBytes ((sector.drop flashOffset).take cfgEnvSize)
  if crc32 0 env.data = env.crc then ⟨1, env.data⟩ else ⟨0, defaultEnvironment⟩

/-- `saveenv` without a redundant copy, on a flash whose operations succeed. -/
def saveenv (env : EnvT) (sector : List UInt8) : List UInt8 :=
  let envBuffer := sector.take flashOffset ++ envBytes env ++
    sector.drop (flashOffset + (envBytes env).length)
  program (erase sector) envBuffer

theorem saveenv_eq {env : EnvT} {sector : List UInt8}
    (h : flashOffset + (envBytes env).length ≤ sector.length) :
    saveenv flashOffset env sector = sector.take flashOffset ++ envBytes env ++
      sector.drop (flashOffset + (envBytes env).length) := by
  refine program_erase ?_
  simp only [List.length_append, List.length_take, List.length_drop]
  omega

theorem envInit_saveenv {env : EnvT} {sector : List UInt8}
    (h : flashOffset + (envBytes env).length ≤ sector.length) :
    envInit defaultEnvironment flashOffset (envBytes env).length
        (saveenv flashOffset env sector) =
      if crc32 0 env.data = env.crc then ⟨1, env.data⟩ else ⟨0, defaultEnvironment⟩ := by
  have hl : (sector.take flashOffset).length = flashOffset := by
    rw [List.length_take]
    omega
  have hread : ((saveenv flashOffset env sector).drop flashOffset).take (envBytes env).length =
      envBytes env := by
    rw [saveenv_eq flashOffset h, List.append_assoc, List.drop_left' hl, List.take_left]
  rw [envInit, hread, envOfBytes_envBytes]

end UBoot.Env.EnvFlash
