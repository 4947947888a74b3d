import Mathlib.Tactic.SplitIfs
import UBoot.Lib.ReadLog

namespace UBoot.Net.Cdp

open Lib.Memory Lib.ReadLog

def cdpNativeVlanTlv : ℕ := 0x000a

def cdpApplianceVlanTlv : ℕ := 0x000e

def cdpSnapHdr : List UInt8 := [0xAA, 0xAA, 0x03, 0x00, 0x00, 0x0C, 0x20, 0x00]

/-- The variables that a packet sets. -/
structure Vars where
  cdpOK : Bool
  cdpNativeVLAN : ℕ
  cdpApplianceVLAN : ℕ

def addCarry (result : ℕ) : ℕ := result % 65536 + result / 65536

/-- `while (result >> 16)`. -/
def addCarries (result : ℕ) : ℕ :=
  if 65536 ≤ result then addCarries (addCarry result) else result
termination_by result
decreasing_by
  rw [addCarry]
  omega

/-- The sum over the 16-bit words. The sign of a last single byte is extended. -/
def sumWords : ℕ → List UInt8 → ℕ
  | result, [] => result
  | result, [b] =>
    let leftover := if b.toNat < 128 then b.toNat else 65280 + b.toNat
    result / 65536 * 65536 + (result + leftover) % 65536
  | result, b :: c :: buff =>
    let result := result + (b.toNat * 256 + c.toNat)
    sumWords (if 2147483648 ≤ result then addCarry result else result) buff

/-- `CDP_compute_csum` on a big-endian machine, for a buffer at an odd or an even address. -/
def cdpComputeCsum (odd : Bool) (buff : List UInt8) : ℕ :=
  let result :=
    if odd then addCarries (sumWords ((buff.headD 0).toNat * 256) (buff.drop 1))
    else addCarries (sumWords 0 buff)
  let result := if odd then result / 256 % 256 + result % 256 * 256 else result
  65535 - addCarry (addCarry (addCarry result)) % 65536

section Handler

variable (vlanType : Option UInt8)

/-- The appliance ids whose VLAN is taken, by `CONFIG_CDP_APPLIANCE_VLAN_TYPE` if it is set. -/
def takes (applid : UInt8) : Prop := ∀ type ∈ vlanType, applid = type

instance : DecidablePred (takes vlanType) := fun applid ↦
  inferInstanceAs (Decidable (∀ type ∈ vlanType, applid = type))

/-- The entries of an appliance VLAN TLV from `t` on; `none` is the jump to `pkt_short`. -/
def applianceLoop : ℕ → ℕ → ℕ → Reader (Option ℕ)
  | 0, _, vlan => return some vlan
  | 1, _, _ => return none
  | 2, _, _ => return none
  | tlen + 3, t, vlan => do
    let applid ← Reader.read t
    if takes vlanType applid then
      let vlan ← Reader.read16 (t + 1)
      applianceLoop tlen (t + 3) vlan
    else applianceLoop tlen (t + 3) vlan

/-- The `switch` on the type of a TLV with its data at `ss`: `vlan` and `nvlan`, or `none` for the
jump to `pkt_short`. -/
def tlvSwitch (type tlen ss vlan nvlan : ℕ) : Reader (Option (ℕ × ℕ)) :=
  if type = cdpNativeVlanTlv then do
    let nvlan ← Reader.read16 ss
    return some (vlan, nvlan)
  else if type = cdpApplianceVlanTlv then do
    let vlan ← applianceLoop vlanType tlen ss vlan
    return vlan.map (·, nvlan)
  else return some (vlan, nvlan)

/-- The loop over the TLVs with `len` bytes left from `pkt` on: the outer `none` when `fuel` rounds
are not enough, the inner one the jump to `pkt_short`. -/
def tlvLoop : ℕ → ℕ → ℕ → ℕ → ℕ → Reader (Option (Option (ℕ × ℕ)))
  | 0, _, _, _, _ => return none
  | fuel + 1, pkt, len, vlan, nvlan =>
    if len = 0 then return some (some (vlan, nvlan))
    else if len < 4 then return some none
    else do
      let type ← Reader.read16 pkt
      let tlen ← Reader.read16 (pkt + 2)
      if len < tlen then return some none
      else
        -- a `ushort`: below the size of the header it wraps
        let vlans ← tlvSwitch vlanType type ((tlen + 65532) % 65536) (pkt + 4) vlan nvlan
        vlans.elim (return some none) fun vlans ↦
          tlvLoop fuel (pkt + tlen) (len - tlen) vlans.1 vlans.2

/-- `CDPHandler`; `none` when `fuel` rounds are not enough. -/
def cdpHandler (odd : Bool) (fuel len : ℕ) (v : Vars) : Reader (Option Vars) := do
  if len < 12 then return some v
  else
    let snap ← Reader.readBytes 0 8
    if snap ≠ cdpSnapHdr then return some v
    else
      let version ← Reader.read 8
      if version < 2 then return some v
      else
        let ttl ← Reader.read 9
        if ttl = 0 then return some v
        else
          -- the checksum takes the length as a `ushort`
          let buff ← Reader.readBytes 8 ((len - 8) % 65536)
          if cdpComputeCsum odd buff ≠ 0 then return some v
          else
            let vlans ← tlvLoop vlanType fuel 12 (len - 12) 65535 65535
            return vlans.map fun vlans ↦ vlans.elim v fun vlans ↦
              { cdpOK := true, cdpNativeVLAN := vlans.2, cdpApplianceVLAN := vlans.1 }

end Handler

/-- The type of the TLV at `pkt`. -/
def tlvType (m : Mem) (pkt : ℕ) : ℕ := load16 m pkt

/-- The length of the TLV at `pkt`. -/
def tlvLen (m : Mem) (pkt : ℕ) : ℕ := load16 m (pkt + 2)

/-- The `len` bytes from `pkt` on are TLVs of at least 4 bytes. -/
inductive Tlvs (m : Mem) : ℕ → ℕ → Prop
  | nil {pkt : ℕ} : Tlvs m pkt 0
  | cons {pkt len : ℕ} : 4 ≤ tlvLen m pkt → tlvLen m pkt ≤ len →
      Tlvs m (pkt + tlvLen m pkt) (len - tlvLen m pkt) → Tlvs m pkt len

/-- What a call of `CDPHandler` does: it returns, reads inside the packet, and changes the variables
only for a packet that is made of TLVs. -/
def Parses (vlanType : Option UInt8) (odd : Bool) (m : Mem) (len : ℕ) (v : Vars) : Prop :=
  ∃ fuel v', (cdpHandler vlanType odd fuel len v).value m = some v' ∧
    (cdpHandler vlanType odd fuel len v).Below m len ∧ (v' ≠ v → Tlvs m 12 (len - 12))

/-- A packet whose TLVs are looked at. -/
def Accepted (odd : Bool) (m : Mem) (len : ℕ) : Prop :=
  12 ≤ len ∧ bytes m 0 8 = cdpSnapHdr ∧ ¬ m 8 < 2 ∧ m 9 ≠ 0 ∧
    cdpComputeCsum odd (bytes m 8 ((len - 8) % 65536)) = 0

/-- What is read of the data of the TLV at `pkt` lies in the `len` bytes from there on. -/
def DataInside (vlanType : Option UInt8) (m : Mem) (pkt len : ℕ) : Prop :=
  (tlvType m pkt = cdpNativeVlanTlv → 6 ≤ len) ∧
  (tlvType m pkt = cdpApplianceVlanTlv → ∀ i < (tlvLen m pkt + 65532) % 65536 / 3,
    4 + 3 * i < len ∧ (takes vlanType (m (pkt + 4 + 3 * i)) → 4 + 3 * i + 3 ≤ len))

/-- The appliance VLAN TLV at `pkt` does not end in a part of an entry. -/
def Whole (m : Mem) (pkt : ℕ) : Prop :=
  tlvType m pkt = cdpApplianceVlanTlv → (tlvLen m pkt + 65532) % 65536 % 3 = 0

instance (m : Mem) (pkt : ℕ) : Decidable (Whole m pkt) := by
  unfold Whole
  infer_instance

/-- The TLVs from `pkt` on, none of them empty, with all their reads inside, up to the end or to one
that is too short. `good` when those in front have at least 4 bytes, without which the end must
not be reached. -/
inductive Walk (vlanType : Option UInt8) (m : Mem) : Prop → ℕ → ℕ → Prop
  | done {good : Prop} {pkt : ℕ} : good → Walk vlanType m good pkt 0
  | short {good : Prop} {pkt len : ℕ} : 0 < len → len < 4 ∨ len < tlvLen m pkt →
      Walk vlanType m good pkt len
  | tlv {good : Prop} {pkt len : ℕ} : 4 ≤ len → 0 < tlvLen m pkt → tlvLen m pkt ≤ len →
      DataInside vlanType m pkt len → (Whole m pkt → Walk vlanType m (good ∧ 4 ≤ tlvLen m pkt)
        (pkt + tlvLen m pkt) (len - tlvLen m pkt)) → Walk vlanType m good pkt len

section Loops

variable {vlanType : Option UInt8} {m : Mem}

/-- One entry. -/
theorem applianceLoop_add (vlanType : Option UInt8) (m : Mem) (tlen t vlan : ℕ) : ∃ vlan',
    (applianceLoop vlanType (tlen + 3) t vlan).value m =
      (applianceLoop vlanType tlen (t + 3) vlan').value m ∧
    ∀ n, (applianceLoop vlanType (tlen + 3) t vlan).Below m n ↔
      (t < n ∧ (takes vlanType (m t) → t + 3 ≤ n)) ∧
        (applianceLoop vlanType tlen (t + 3) vlan').Below m n := by
  rw [applianceLoop]
  by_cases htakes : takes vlanType (m t)
  · refine ⟨load16 m (t + 1), ?_, fun n ↦ ?_⟩
    · rw [Reader.value_bind, Reader.value_read, if_pos htakes, Reader.value_bind,
        Reader.value_read16]
    · rw [Reader.below_bind, Reader.below_read, Reader.value_read, if_pos htakes,
        Reader.below_bind, Reader.below_read16, Reader.value_read16, imp_iff_right htakes,
        and_assoc, Nat.add_assoc]
  · refine ⟨vlan, ?_, fun n ↦ ?_⟩
    · rw [Reader.value_bind, Reader.value_read, if_neg htakes]
    · rw [Reader.below_bind, Reader.below_read, Reader.value_read, if_neg htakes,
        and_iff_left fun h ↦ absurd h htakes]

theorem applianceLoop_value_iff (vlanType : Option UInt8) (m : Mem) (tlen t vlan : ℕ) :
    (∃ vlan', (applianceLoop vlanType tlen t vlan).value m = some vlan') ↔ tlen % 3 = 0 := by
  induction tlen, t, vlan using applianceLoop.induct with
  | case1 t vlan => exact iff_of_true ⟨vlan, rfl⟩ rfl
  | case2 t vlan => exact iff_of_false (fun ⟨_, h⟩ ↦ by cases h) (by decide)
  | case3 t vlan => exact iff_of_false (fun ⟨_, h⟩ ↦ by cases h) (by decide)
  | case4 tlen t vlan ih _ =>
    obtain ⟨vlan', hvalue, -⟩ := applianceLoop_add vlanType m tlen t vlan
    rw [hvalue, ih vlan', Nat.succ_eq_add_one, Nat.add_assoc, Nat.add_mod_right]

theorem applianceLoop_below_iff (n tlen t vlan : ℕ) :
    (applianceLoop vlanType tlen t vlan).Below m n ↔
      ∀ i < tlen / 3, t + 3 * i < n ∧ (takes vlanType (m (t + 3 * i)) → t + 3 * i + 3 ≤ n) := by
  induction tlen, t, vlan using applianceLoop.induct with
  | case1 t vlan => exact iff_of_true (Reader.below_pure _) (by omega)
  | case2 t vlan => exact iff_of_true (Reader.below_pure _) (by omega)
  | case3 t vlan => exact iff_of_true (Reader.below_pure _) (by omega)
  | case4 tlen t vlan ih _ =>
    obtain ⟨vlan', -, hbelow⟩ := applianceLoop_add vlanType m tlen t vlan
    have hdiv : (tlen + 3) / 3 = tlen / 3 + 1 := by omega
    have hoff (i : ℕ) : t + 3 + 3 * i = t + 3 * (i + 1) := by omega
    simp only [hbelow, ih vlan', hdiv, hoff]
    rw [Nat.forall_lt_succ_left]
    rfl

variable {pkt len : ℕ}

theorem tlvSwitch_value_iff (vlanType : Option UInt8) (m : Mem) (pkt vlan nvlan : ℕ) :
    (∃ vlans, (tlvSwitch vlanType (tlvType m pkt) ((tlvLen m pkt + 65532) % 65536) (pkt + 4) vlan
      nvlan).value m = some vlans) ↔ Whole m pkt := by
  rw [tlvSwitch, Whole]
  split_ifs with hnative happliance
  · refine iff_of_true ⟨_, rfl⟩ fun h ↦ ?_
    rw [h] at hnative
    exact absurd hnative (by decide)
  · rw [imp_iff_right happliance, ← applianceLoop_value_iff vlanType m _ (pkt + 4) vlan,
      Reader.value_bind, Reader.value_pure]
    constructor
    · rintro ⟨vlans, h⟩
      obtain ⟨vlan', hvlan, -⟩ := Option.map_eq_some_iff.mp h
      exact ⟨vlan', hvlan⟩
    · rintro ⟨vlan', hvlan⟩
      exact ⟨(vlan', nvlan), by rw [hvlan, Option.map_some]⟩
  · exact iff_of_true ⟨_, rfl⟩ fun h ↦ absurd h happliance

theorem tlvSwitch_below_iff (vlanType : Option UInt8) (m : Mem) (pkt len vlan nvlan : ℕ) :
    (tlvSwitch vlanType (tlvType m pkt) ((tlvLen m pkt + 65532) % 65536) (pkt + 4) vlan
      nvlan).Below m (pkt + len) ↔ DataInside vlanType m pkt len := by
  rw [tlvSwitch, DataInside]
  split_ifs with hnative happliance
  · have hne : tlvType m pkt ≠ cdpApplianceVlanTlv := by
      rw [hnative]
      decide
    rw [Reader.below_bind, Reader.below_read16, and_iff_left (Reader.below_pure _),
      imp_iff_right hnative, and_iff_left fun h ↦ absurd h hne]
    omega
  · rw [Reader.below_bind, applianceLoop_below_iff, and_iff_left (Reader.below_pure _),
      imp_iff_right happliance, and_iff_right fun h ↦ absurd h hnative]
    have hinside (i : ℕ) : pkt + 4 + 3 * i < pkt + len ↔ 4 + 3 * i < len := by omega
    have hentry (i : ℕ) : pkt + 4 + 3 * i + 3 ≤ pkt + len ↔ 4 + 3 * i + 3 ≤ len := by omega
    simp only [hinside, hentry]
  · exact iff_of_true (Reader.below_pure _)
      ⟨fun h ↦ absurd h hnative, fun h ↦ absurd h happliance⟩

/-- One TLV. -/
theorem tlvLoop_add (vlanType : Option UInt8) (hlen : 4 ≤ len) (htlen : tlvLen m pkt ≤ len)
    (vlan nvlan : ℕ) :
    ∃ vlan' nvlan', ∀ fuel, (tlvLoop vlanType (fuel + 1) pkt len vlan nvlan).value m =
        (if Whole m pkt then (tlvLoop vlanType fuel (pkt + tlvLen m pkt) (len - tlvLen m pkt)
          vlan' nvlan').value m else some none) ∧
      ((tlvLoop vlanType (fuel + 1) pkt len vlan nvlan).Below m (pkt + len) ↔
        DataInside vlanType m pkt len ∧ (Whole m pkt → (tlvLoop vlanType fuel
          (pkt + tlvLen m pkt) (len - tlvLen m pkt) vlan' nvlan').Below m (pkt + len))) := by
  have hvalue := tlvSwitch_value_iff vlanType m pkt vlan nvlan
  have hbelow := tlvSwitch_below_iff vlanType m pkt len vlan nvlan
  have htype : (Reader.read16 pkt).value m = tlvType m pkt := rfl
  have hlength : (Reader.read16 (pkt + 2)).value m = tlvLen m pkt := rfl
  have hne : ¬ len = 0 := by omega
  have hstep (fuel : ℕ) : (tlvLoop vlanType (fuel + 1) pkt len vlan nvlan).Below m (pkt + len) ↔
      DataInside vlanType m pkt len ∧ ((tlvSwitch vlanType (tlvType m pkt)
        ((tlvLen m pkt + 65532) % 65536) (pkt + 4) vlan nvlan).value m).elim True fun vlans ↦
          (tlvLoop vlanType fuel (pkt + tlvLen m pkt) (len - tlvLen m pkt)
            vlans.1 vlans.2).Below m (pkt + len) := by
    rw [tlvLoop, if_neg hne, if_neg (by omega), Reader.below_bind, Reader.below_read16,
      Reader.below_bind, Reader.below_read16, htype, hlength, if_neg (by omega), Reader.below_bind,
      hbelow, and_iff_right (by omega), and_iff_right (by omega)]
    cases (tlvSwitch vlanType (tlvType m pkt) ((tlvLen m pkt + 65532) % 65536) (pkt + 4) vlan
        nvlan).value m with
    | none => exact and_congr_right fun _ ↦ iff_of_true (Reader.below_pure _) trivial
    | some vlans => exact Iff.rfl
  have hrun (fuel : ℕ) : (tlvLoop vlanType (fuel + 1) pkt len vlan nvlan).value m =
      ((tlvSwitch vlanType (tlvType m pkt) ((tlvLen m pkt + 65532) % 65536) (pkt + 4) vlan
        nvlan).value m).elim (some none) fun vlans ↦ (tlvLoop vlanType fuel (pkt + tlvLen m pkt)
          (len - tlvLen m pkt) vlans.1 vlans.2).value m := by
    rw [tlvLoop, if_neg hne, if_neg (by omega), Reader.value_bind, Reader.value_bind, htype,
      hlength, if_neg (by omega), Reader.value_bind]
    cases (tlvSwitch vlanType (tlvType m pkt) ((tlvLen m pkt + 65532) % 65536) (pkt + 4) vlan
        nvlan).value m with
    | none => rfl
    | some vlans => rfl
  cases hvlans : (tlvSwitch vlanType (tlvType m pkt) ((tlvLen m pkt + 65532) % 65536) (pkt + 4) vlan
      nvlan).value m with
  | none =>
    have hwhole : ¬ Whole m pkt := fun h ↦ by
      obtain ⟨vlans, hsome⟩ := hvalue.mpr h
      rw [hvlans] at hsome
      cases hsome
    refine ⟨0, 0, fun fuel ↦ ⟨?_, ?_⟩⟩
    · rw [hrun, hvlans, if_neg hwhole]
      rfl
    · rw [hstep, hvlans]
      exact and_congr_right fun _ ↦ iff_of_true trivial fun h ↦ absurd h hwhole
  | some vlans =>
    have hwhole : Whole m pkt := hvalue.mp ⟨vlans, hvlans⟩
    refine ⟨vlans.1, vlans.2, fun fuel ↦ ⟨?_, ?_⟩⟩
    · rw [hrun, hvlans, if_pos hwhole]
      rfl
    · rw [hstep, hvlans, imp_iff_right hwhole]
      rfl

/-- A TLV of length 0 is looked at again and again. -/
theorem tlvLoop_zero (hlen : 4 ≤ len) (hzero : tlvLen m pkt = 0) (fuel vlan nvlan : ℕ) :
    (tlvLoop vlanType fuel pkt len vlan nvlan).value m = none := by
  induction fuel generalizing vlan nvlan with
  | zero => rfl
  | succ fuel ih =>
    have htlen : tlvLen m pkt ≤ len := by omega
    obtain ⟨vlan', nvlan', hstep⟩ := tlvLoop_add vlanType hlen htlen vlan nvlan
    have hwhole : Whole m pkt := fun _ ↦ by rw [hzero]
    rw [(hstep fuel).1, if_pos hwhole, hzero]
    exact ih vlan' nvlan'

/-- The loop over the TLVs as `CDPHandler` needs it, behind TLVs that are `good` or not. -/
def Ends (vlanType : Option UInt8) (m : Mem) (good : Prop) (pkt len vlan nvlan : ℕ) : Prop :=
  ∃ fuel r, (tlvLoop vlanType fuel pkt len vlan nvlan).value m = some r ∧
    (tlvLoop vlanType fuel pkt len vlan nvlan).Below m (pkt + len) ∧
    (r ≠ none → good ∧ Tlvs m pkt len)

theorem tlvs_iff (hlen : 0 < len) (htlen : tlvLen m pkt ≤ len) : Tlvs m pkt len ↔
    4 ≤ tlvLen m pkt ∧ Tlvs m (pkt + tlvLen m pkt) (len - tlvLen m pkt) := by
  constructor
  · rintro (_ | ⟨hfour, -, hrest⟩)
    · omega
    · exact ⟨hfour, hrest⟩
  · rintro ⟨hfour, hrest⟩
    exact .cons hfour htlen hrest

theorem ends_add (vlanType : Option UInt8) (good : Prop) (hlen : 4 ≤ len)
    (htlen : tlvLen m pkt ≤ len) (vlan nvlan : ℕ) :
    ∃ vlan' nvlan', Ends vlanType m good pkt len vlan nvlan ↔ DataInside vlanType m pkt len ∧
      (Whole m pkt → Ends vlanType m (good ∧ 4 ≤ tlvLen m pkt) (pkt + tlvLen m pkt)
        (len - tlvLen m pkt) vlan' nvlan') := by
  obtain ⟨vlan', nvlan', hstep⟩ := tlvLoop_add vlanType hlen htlen vlan nvlan
  refine ⟨vlan', nvlan', ?_⟩
  have hend : pkt + tlvLen m pkt + (len - tlvLen m pkt) = pkt + len := by omega
  simp only [Ends, hend, tlvs_iff (show 0 < len by omega) htlen]
  by_cases hwhole : Whole m pkt
  · rw [imp_iff_right hwhole]
    constructor
    · rintro ⟨fuel, r, hvalue, hbelow, hr⟩
      cases fuel with
      | zero => cases hvalue
      | succ fuel =>
        rw [(hstep fuel).1, if_pos hwhole] at hvalue
        rw [(hstep fuel).2] at hbelow
        exact ⟨hbelow.1, fuel, r, hvalue, hbelow.2 hwhole, fun h ↦ and_assoc.mpr (hr h)⟩
    · rintro ⟨hinside, fuel, r, hvalue, hbelow, hr⟩
      refine ⟨fuel + 1, r, ?_, ?_, fun h ↦ and_assoc.mp (hr h)⟩
      · rwa [(hstep fuel).1, if_pos hwhole]
      · exact (hstep fuel).2.mpr ⟨hinside, fun _ ↦ hbelow⟩
  · rw [and_iff_left fun h ↦ absurd h hwhole]
    constructor
    · rintro ⟨fuel, r, hvalue, hbelow, hr⟩
      cases fuel with
      | zero => cases hvalue
      | succ fuel => exact ((hstep fuel).2.mp hbelow).1
    · intro hinside
      refine ⟨1, none, ?_, ?_, fun h ↦ absurd rfl h⟩
      · rw [(hstep 0).1, if_neg hwhole]
      · exact (hstep 0).2.mpr ⟨hinside, fun h ↦ absurd h hwhole⟩

theorem ends_iff (good : Prop) (pkt len vlan nvlan : ℕ) :
    Ends vlanType m good pkt len vlan nvlan ↔ Walk vlanType m good pkt len := by
  induction len using Nat.strongRecOn generalizing good pkt vlan nvlan with
  | ind len ih =>
    rcases Nat.eq_zero_or_pos len with rfl | hpos
    · constructor
      · rintro ⟨fuel, r, hvalue, -, hr⟩
        cases fuel with
        | zero => cases hvalue
        | succ fuel =>
          rw [tlvLoop, if_pos rfl] at hvalue
          cases hvalue
          exact .done (hr (Option.some_ne_none _)).1
      · intro hwalk
        refine ⟨1, some (vlan, nvlan), rfl, Reader.below_pure _, fun _ ↦ ⟨?_, .nil⟩⟩
        cases hwalk with
        | done hgood => exact hgood
        | short hpos => omega
        | tlv hfour => omega
    have hne : len ≠ 0 := by omega
    by_cases hshort : len < 4 ∨ len < tlvLen m pkt
    · refine iff_of_true ?_ (.short hpos hshort)
      refine ⟨1, none, ?_, ?_, fun h ↦ absurd rfl h⟩
      · rw [tlvLoop, if_neg hne]
        split_ifs with hfour
        · rfl
        · have hlt : len < (Reader.read16 (pkt + 2)).value m := hshort.resolve_left hfour
          rw [Reader.value_bind, Reader.value_bind, if_pos hlt]
          rfl
      · rw [tlvLoop, if_neg hne]
        split_ifs with hfour
        · exact Reader.below_pure _
        · have hlt : len < (Reader.read16 (pkt + 2)).value m := hshort.resolve_left hfour
          rw [Reader.below_bind, Reader.below_read16, Reader.below_bind, Reader.below_read16,
            if_pos hlt, and_iff_left (Reader.below_pure _)]
          omega
    rw [not_or, Nat.not_lt, Nat.not_lt] at hshort
    obtain ⟨hfour, htlen⟩ := hshort
    obtain ⟨vlan', nvlan', hstep⟩ := ends_add vlanType good hfour htlen vlan nvlan
    rcases Nat.eq_zero_or_pos (tlvLen m pkt) with hzero | htpos
    · refine iff_of_false ?_ ?_
      · rintro ⟨fuel, r, hvalue, -⟩
        rw [tlvLoop_zero hfour hzero] at hvalue
        cases hvalue
      · intro hwalk
        cases hwalk with
        | done hgood => omega
        | short hpos hshort => omega
        | tlv hfour htpos => omega
    · rw [hstep, ih _ (by omega)]
      constructor
      · rintro ⟨hinside, hrest⟩
        exact .tlv hfour htpos htlen hinside hrest
      · intro hwalk
        cases hwalk with
        | done hgood => omega
        | short hpos hshort => omega
        | tlv hfour htpos htlen hinside hrest => exact ⟨hinside, hrest⟩

end Loops

section Packets

variable (vlanType : Option UInt8) {odd : Bool} {m : Mem} {len : ℕ}

/-- Any other packet is dropped by what stands in front of the TLVs. -/
theorem cdpHandler_dropped (v : Vars) (fuel : ℕ) (h : ¬ Accepted odd m len) :
    (cdpHandler vlanType odd fuel len v).value m = some v ∧
      (cdpHandler vlanType odd fuel len v).Below m len := by
  constructor
  · simp only [cdpHandler, Reader.value_bind, Reader.value_ite, Reader.value_pure]
    split_ifs with hlen hsnap hversion httl hcsum
    · rfl
    · rfl
    · rfl
    · rfl
    · rfl
    · exact absurd ⟨by omega, not_not.mp hsnap, hversion, httl, not_not.mp hcsum⟩ h
  · simp only [cdpHandler, Reader.below_bind, Reader.below_ite, Reader.below_pure,
      Reader.below_read, Reader.below_readBytes, implies_true, true_and]
    intro hlen
    refine ⟨by omega, fun hsnap ↦ ⟨by omega, fun hversion ↦ ⟨by omega, fun httl ↦ ⟨?_, ?_⟩⟩⟩⟩
    · have hmod := Nat.mod_le (len - 8) 65536
      omega
    · intro hcsum
      exact absurd ⟨by omega, not_not.mp hsnap, hversion, httl, not_not.mp hcsum⟩ h

theorem cdpHandler_accepted (v : Vars) (fuel : ℕ) (h : Accepted odd m len) :
    (cdpHandler vlanType odd fuel len v).value m =
        ((tlvLoop vlanType fuel 12 (len - 12) 65535 65535).value m).map (fun vlans ↦ vlans.elim v
          fun vlans ↦ { cdpOK := true, cdpNativeVLAN := vlans.2, cdpApplianceVLAN := vlans.1 }) ∧
      ((cdpHandler vlanType odd fuel len v).Below m len ↔
        (tlvLoop vlanType fuel 12 (len - 12) 65535 65535).Below m len) := by
  obtain ⟨hlen, hsnap, hversion, httl, hcsum⟩ := h
  rw [cdpHandler, if_neg (by omega)]
  constructor
  · simp only [Reader.value_bind, Reader.value_ite, Reader.value_pure]
    have hsnap' : ¬ (Reader.readBytes 0 8).value m ≠ cdpSnapHdr := not_not.mpr hsnap
    have hversion' : ¬ (Reader.read 8).value m < 2 := hversion
    have httl' : ¬ (Reader.read 9).value m = 0 := httl
    have hcsum' : ¬ cdpComputeCsum odd
        ((Reader.readBytes 8 ((len - 8) % 65536)).value m) ≠ 0 := not_not.mpr hcsum
    rw [if_neg hsnap', if_neg hversion', if_neg httl', if_neg hcsum']
  · simp only [Reader.below_bind, Reader.below_ite, Reader.below_pure, Reader.below_read,
      Reader.below_readBytes, implies_true, true_and, and_true]
    constructor
    · rintro ⟨-, hrest⟩
      exact (((hrest (not_not.mpr hsnap)).2 hversion).2 httl).2 (not_not.mpr hcsum)
    · intro hbelow
      refine ⟨by omega, fun _ ↦ ⟨by omega, fun _ ↦ ⟨by omega, fun _ ↦ ⟨?_, fun _ ↦ hbelow⟩⟩⟩⟩
      have hmod := Nat.mod_le (len - 8) 65536
      omega

/-- `CDPHandler` parses a packet, whatever the variables are, exactly when it drops it at once or
the TLVs can be walked. -/
theorem cdp_handler_parses_iff (odd : Bool) (m : Mem) (len : ℕ) :
    (∀ v, Parses vlanType odd m len v) ↔
      (Accepted odd m len → Walk vlanType m True 12 (len - 12)) := by
  by_cases h : Accepted odd m len
  · rw [imp_iff_right h, ← ends_iff True 12 (len - 12) 65535 65535]
    have hend : 12 + (len - 12) = len := by
      obtain ⟨hlen, -⟩ := h
      omega
    constructor
    · intro hparses
      obtain ⟨fuel, v', hvalue, hbelow, hv'⟩ := hparses ⟨false, 0, 0⟩
      rw [(cdpHandler_accepted _ _ fuel h).1, Option.map_eq_some_iff] at hvalue
      obtain ⟨r, hr, rfl⟩ := hvalue
      refine ⟨fuel, r, hr, ?_, fun hne ↦ ⟨trivial, ?_⟩⟩
      · rw [hend]
        exact (cdpHandler_accepted _ _ fuel h).2.mp hbelow
      · obtain ⟨vlans, rfl⟩ := Option.ne_none_iff_exists'.mp hne
        exact hv' fun heq ↦ Bool.noConfusion (congrArg Vars.cdpOK heq)
    · rintro ⟨fuel, r, hvalue, hbelow, hr⟩ v
      rw [hend] at hbelow
      have hvalue' := (cdpHandler_accepted vlanType v fuel h).1
      rw [hvalue, Option.map_some] at hvalue'
      refine ⟨fuel, _, hvalue', (cdpHandler_accepted vlanType v fuel h).2.mpr hbelow, fun hne ↦ ?_⟩
      cases r with
      | none => exact absurd rfl hne
      | some vlans => exact (hr (Option.some_ne_none _)).2
  · refine iff_of_true (fun v ↦ ?_) fun h' ↦ absurd h' h
    obtain ⟨hvalue, hbelow⟩ := cdpHandler_dropped vlanType v 0 h
    exact ⟨0, v, hvalue, hbelow, fun hne ↦ absurd rfl hne⟩

/-- A packet with one TLV, of length 0. -/
def emptyTlv : Mem := fun i ↦
  [0xAA, 0xAA, 0x03, 0x00, 0x00, 0x0C, 0x20, 0x00, 0x02, 0xB4, 0xFD, 0x4A, 0, 1, 0, 0].getD i 0

/-- Its loop does not end. -/
theorem cdp_handler_parses_emptyTlv : ¬ ∀ v, Parses none false emptyTlv 16 v := by
  have hsum : sumWords 0 (bytes emptyTlv 8 8) = 65535 := by decide
  have hcarries : addCarries 65535 = 65535 := by
    rw [addCarries, if_neg (by decide)]
  have hcsum : cdpComputeCsum false (bytes emptyTlv 8 8) = 0 := by
    rw [cdpComputeCsum]
    rw [if_neg Bool.false_ne_true, hsum, hcarries]
    decide
  have haccepted : Accepted false emptyTlv 16 :=
    ⟨by decide, by decide, by decide, by decide, hcsum⟩
  intro hparses
  obtain ⟨fuel, v', hvalue, -⟩ := hparses ⟨false, 0, 0⟩
  rw [(cdpHandler_accepted _ _ fuel haccepted).1, tlvLoop_zero (by decide) (by decide)] at hvalue
  cases hvalue

end Packets

end UBoot.Net.Cdp
