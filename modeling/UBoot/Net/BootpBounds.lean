import UBoot.Net.Bootp

namespace UBoot.Net.BootpBounds

open Lib.CString Lib.Memory Lib.ReadLog Bootp

/-- Where the option at `e` ends, by its length byte. -/
def nextOption (m : Mem) (e : ℕ) : ℕ := e + (m (e + 1)).toNat + 2

/-- The bytes that are copied from behind the header at `e` are in the packet. -/
def DataInside (len e : ℕ) (n : ℕ) : Prop := n = 0 ∨ e + 2 + n ≤ len

/-- The options from `e` on, as `DhcpOptionsProcess` takes them, lie in the packet up to an end
option or up to the 548th byte. -/
inductive DhcpChain (m : Mem) (len : ℕ) : ℕ → NetParams → Prop
  | bound {e : ℕ} {p : NetParams} : optionsStart + bootpHdrSize ≤ e → DhcpChain m len e p
  | done {e : ℕ} {p : NetParams} : e < len → m e = endOption → DhcpChain m len e p
  | option {e : ℕ} {p : NetParams} : e + 1 < len →
      DataInside len e (dhcpOption p (m e) (m (e + 1)).toNat).1 →
      DhcpChain m len (nextOption m e) ((dhcpOption p (m e) (m (e + 1)).toNat).2
        (bytes m (e + 2) (dhcpOption p (m e) (m (e + 1)).toNat).1)) →
      DhcpChain m len e p

/-- The options from `e` on, as `DhcpMessageType` takes them, lie in the packet up to an end option
or up to a message type. -/
inductive MessageChain (m : Mem) (len : ℕ) : ℕ → Prop
  | done {e : ℕ} : e < len → m e = endOption → MessageChain m len e
  | type {e : ℕ} : e + 2 < len → m e = 53 → MessageChain m len e
  | option {e : ℕ} : m e ≠ 53 → e + 1 < len → MessageChain m len (nextOption m e) →
      MessageChain m len e

/-- The options from `e` on, as `BootpVendorProcess` takes them up to `stop`. An option that goes
past `stop` is skipped, and ends the list. -/
inductive BootpChain (base stop : ℕ) (m : Mem) (len : ℕ) : ℕ → NetParams → Prop
  | bound {e : ℕ} {p : NetParams} : stop ≤ e → BootpChain base stop m len e p
  | done {e : ℕ} {p : NetParams} : e < len → m e = endOption → BootpChain base stop m len e p
  | pad {e : ℕ} {p : NetParams} : e < len → m e = 0 → BootpChain base stop m len (e + 1) p →
      BootpChain base stop m len e p
  | past {e : ℕ} {p : NetParams} : m e ≠ 0 → e + 1 < len → stop < nextOption m e →
      BootpChain base stop m len e p
  | option {e : ℕ} {p : NetParams} : m e ≠ 0 → e + 1 < len → nextOption m e ≤ stop →
      DataInside len e (bootpVendorField base e p (m e) (m (e + 1)).toNat).1 →
      BootpChain base stop m len (nextOption m e)
        ((bootpVendorField base e p (m e) (m (e + 1)).toNat).2
          (bytes m (e + 2) (bootpVendorField base e p (m e) (m (e + 1)).toNat).1)) →
      BootpChain base stop m len e p

section Chains

variable {m : Mem} {len : ℕ}

theorem dhcpOptions_below_iff (fuel e : ℕ) (p : NetParams)
    (hfuel : optionsStart + bootpHdrSize ≤ e + fuel) :
    (dhcpOptions fuel e p).Below m len ↔ DhcpChain m len e p := by
  induction fuel generalizing e p with
  | zero => exact iff_of_true (Reader.below_pure _) (.bound hfuel)
  | succ fuel ih =>
    rw [dhcpOptions]
    split_ifs with hbound
    · exact iff_of_true (Reader.below_pure _) (.bound hbound)
    rw [Reader.below_bind, Reader.below_read, Reader.value_read]
    split_ifs with hend
    · rw [and_iff_left (Reader.below_pure _)]
      constructor
      · intro hlt
        exact .done hlt hend
      · rintro (h | ⟨hlt, -⟩ | ⟨hlt, -, -⟩)
        · exact absurd h hbound
        · exact hlt
        · omega
    · simp only [Reader.below_bind, Reader.below_read, Reader.value_read, Reader.below_readBytes,
        Reader.value_readBytes, Reader.below_pure, and_true]
      rw [ih _ _ (by omega)]
      constructor
      · rintro ⟨-, hlen, hdata, hrest⟩
        exact .option hlen hdata hrest
      · rintro (h | ⟨-, h⟩ | ⟨hlen, hdata, hrest⟩)
        · exact absurd h hbound
        · exact absurd h hend
        · exact ⟨by omega, hlen, hdata, hrest⟩

theorem bootpVendorLoop_below_iff (base stop fuel e : ℕ) (p : NetParams)
    (hfuel : stop ≤ e + fuel) :
    (bootpVendorLoop base stop fuel e p).Below m len ↔ BootpChain base stop m len e p := by
  induction fuel generalizing e p with
  | zero => exact iff_of_true (Reader.below_pure _) (.bound hfuel)
  | succ fuel ih =>
    rw [bootpVendorLoop]
    split_ifs with hbound
    · exact iff_of_true (Reader.below_pure _) (.bound hbound)
    rw [Reader.below_bind, Reader.below_read, Reader.value_read]
    split_ifs with hend hpad
    · rw [and_iff_left (Reader.below_pure _)]
      constructor
      · intro hlt
        exact .done hlt hend
      · rintro (h | ⟨hlt, -⟩ | ⟨hlt, -, -⟩ | ⟨-, hlt, -⟩ | ⟨-, hlt, -, -, -⟩)
        · exact absurd h hbound
        · exact hlt
        · exact hlt
        · omega
        · omega
    · rw [ih _ _ (by omega)]
      constructor
      · rintro ⟨hlt, hrest⟩
        exact .pad hlt hpad hrest
      · rintro (h | ⟨-, h⟩ | ⟨hlt, -, hrest⟩ | ⟨h, -, -⟩ | ⟨h, -, -, -, -⟩)
        · exact absurd h hbound
        · exact absurd h hend
        · exact ⟨hlt, hrest⟩
        · exact absurd hpad h
        · exact absurd hpad h
    · rw [Reader.below_bind, Reader.below_read, Reader.value_read]
      dsimp only
      split_ifs with hstop
      · simp only [Reader.below_bind, Reader.below_readBytes, Reader.value_readBytes,
          Reader.below_pure, and_true]
        rw [ih _ _ (by omega)]
        constructor
        · rintro ⟨-, hlen, hdata, hrest⟩
          exact .option hpad hlen hstop hdata hrest
        · rintro (h | ⟨-, h⟩ | ⟨-, h, -⟩ | ⟨-, -, h⟩ | ⟨-, hlen, -, hdata, hrest⟩)
          · exact absurd h hbound
          · exact absurd h hend
          · exact absurd h hpad
          · exact absurd hstop (Nat.not_le.mpr h)
          · exact ⟨by omega, hlen, hdata, hrest⟩
      · have hpast : (bootpVendorLoop base stop fuel (e + (m (e + 1)).toNat + 2) p).Below m len :=
          (ih _ _ (by omega)).mpr (.bound (by omega))
        rw [and_iff_left hpast]
        constructor
        · rintro ⟨-, hlen⟩
          exact .past hpad hlen (Nat.not_le.mp hstop)
        · rintro (h | ⟨-, h⟩ | ⟨-, h, -⟩ | ⟨-, hlen, -⟩ | ⟨-, -, h, -, -⟩)
          · exact absurd h hbound
          · exact absurd h hend
          · exact absurd h hpad
          · exact ⟨by omega, hlen⟩
          · exact absurd h hstop

/-- A chain of options is walked to its end, and only the packet is read. -/
theorem exists_messageTypeLoop {e : ℕ} (h : MessageChain m len e) :
    ∃ fuel r, (messageTypeLoop fuel e).value m = some r ∧ (messageTypeLoop fuel e).Below m len := by
  induction h with
  | @done e hlt hend =>
    refine ⟨1, (-1, []), ?_, ?_⟩
    · simp [messageTypeLoop, hend]
    · simp [messageTypeLoop, hend, hlt]
  | @type e hlt htype =>
    have hne : (53 : UInt8) ≠ endOption := by decide
    refine ⟨1, ((m (e + 2)).toNat, [e]), ?_, ?_⟩
    · simp [messageTypeLoop, htype, hne]
    · simp [messageTypeLoop, htype, hne, hlt]
      omega
  | @option e hne hlt hrest ih =>
    by_cases hend : m e = endOption
    · refine ⟨1, (-1, []), ?_, ?_⟩
      · simp [messageTypeLoop, hend]
      · simp [messageTypeLoop, hend]
        omega
    · obtain ⟨fuel, r, hvalue, hbelow⟩ := ih
      rw [nextOption] at hvalue hbelow
      refine ⟨fuel + 1, (r.1, e :: r.2), ?_, ?_⟩
      · simp [messageTypeLoop, hend, hne, hvalue]
      · simp only [messageTypeLoop, Reader.below_bind, Reader.below_read, Reader.value_read, hend,
          hne, if_false, hbelow, Reader.below_pure, and_true]
        omega

theorem messageChain_of_loop {fuel e : ℕ} {r : ℤ × List ℕ}
    (h : (messageTypeLoop fuel e).value m = some r)
    (hbelow : (messageTypeLoop fuel e).Below m len) : MessageChain m len e := by
  induction fuel generalizing e r with
  | zero => cases h
  | succ fuel ih =>
    rw [messageTypeLoop] at h hbelow
    rw [Reader.below_bind, Reader.below_read, Reader.value_read] at hbelow
    rw [Reader.value_bind, Reader.value_read] at h
    split_ifs at h hbelow with hend htype
    · exact .done hbelow.1 hend
    · refine .type ?_ htype
      simpa using hbelow.2
    · simp only [Reader.below_bind, Reader.below_read, Reader.value_read, Reader.below_pure,
        and_true] at hbelow
      simp only [Reader.value_bind, Reader.value_read, Reader.value_pure,
        Option.map_eq_some_iff] at h
      obtain ⟨r', hr', -⟩ := h
      exact .option htype hbelow.2.1 (ih hr' hbelow.2.2)

end Chains

/-- The three scanners end, read nothing behind the packet, and do the same on any other packet that
agrees with this one below `len`. -/
structure StaysInside (base len : ℕ) (p : NetParams) (m : Mem) : Prop where
  bootp : (withCookie p (bootpVendorProcess base len p)).Below m len
  dhcp : (withCookie p (dhcpOptionsProcess p)).Below m len
  type : ∃ fuel r, (dhcpMessageType fuel).value m = some r ∧ (dhcpMessageType fuel).Below m len
  same : ∀ m', (∀ i < len, m' i = m i) →
    (withCookie p (bootpVendorProcess base len p)).value m' =
      (withCookie p (bootpVendorProcess base len p)).value m ∧
    (withCookie p (dhcpOptionsProcess p)).value m' =
      (withCookie p (dhcpOptionsProcess p)).value m ∧
    ∃ fuel r, (dhcpMessageType fuel).value m = some r ∧ (dhcpMessageType fuel).value m' = some r

theorem below_cookie (m : Mem) (len : ℕ) :
    (Reader.readBytes bpVend 4).Below m len ↔ optionsStart ≤ len := by
  rw [Reader.below_readBytes]
  simp [optionsStart]

theorem withCookie_below_iff (m : Mem) (len : ℕ) (p : NetParams)
    (x : Reader (NetParams × List ℕ)) :
    (withCookie p x).Below m len ↔
      optionsStart ≤ len ∧ (bytes m bpVend 4 = bootpVendorMagic → x.Below m len) := by
  rw [withCookie, Reader.below_bind, below_cookie, Reader.value_readBytes]
  by_cases hmagic : bytes m bpVend 4 = bootpVendorMagic
  · rw [if_pos hmagic, imp_iff_right hmagic]
  · rw [if_neg hmagic, and_iff_left (Reader.below_pure _),
      and_iff_left fun h ↦ absurd h hmagic]

theorem dhcpMessageType_inside_iff (m : Mem) (len : ℕ) :
    (∃ fuel r, (dhcpMessageType fuel).value m = some r ∧ (dhcpMessageType fuel).Below m len) ↔
      optionsStart ≤ len ∧
        (bytes m bpVend 4 = bootpVendorMagic → MessageChain m len optionsStart) := by
  by_cases hmagic : bytes m bpVend 4 = bootpVendorMagic
  · have hne : ¬ bytes m bpVend 4 ≠ bootpVendorMagic := not_not_intro hmagic
    have hval (fuel : ℕ) :
        (dhcpMessageType fuel).value m = (messageTypeLoop fuel optionsStart).value m := by
      rw [dhcpMessageType, Reader.value_bind, Reader.value_readBytes, if_neg hne]
    have hbel (fuel : ℕ) : (dhcpMessageType fuel).Below m len ↔
        optionsStart ≤ len ∧ (messageTypeLoop fuel optionsStart).Below m len := by
      rw [dhcpMessageType, Reader.below_bind, below_cookie, Reader.value_readBytes, if_neg hne]
    simp only [hval, hbel, imp_iff_right hmagic]
    constructor
    · rintro ⟨fuel, r, hvalue, hlen, hbelow⟩
      exact ⟨hlen, messageChain_of_loop hvalue hbelow⟩
    · rintro ⟨hlen, hchain⟩
      obtain ⟨fuel, r, hvalue, hbelow⟩ := exists_messageTypeLoop hchain
      exact ⟨fuel, r, hvalue, hlen, hbelow⟩
  · have hne : bytes m bpVend 4 ≠ bootpVendorMagic := hmagic
    have hval (fuel : ℕ) : (dhcpMessageType fuel).value m = some (-1, []) := by
      rw [dhcpMessageType, Reader.value_bind, Reader.value_readBytes, if_pos hne,
        Reader.value_pure]
    have hbel (fuel : ℕ) : (dhcpMessageType fuel).Below m len ↔ optionsStart ≤ len := by
      rw [dhcpMessageType, Reader.below_bind, below_cookie, Reader.value_readBytes, if_pos hne,
        and_iff_left (Reader.below_pure _)]
    constructor
    · rintro ⟨fuel, -, -, hbelow⟩
      exact ⟨(hbel fuel).mp hbelow, fun h ↦ absurd h hmagic⟩
    · rintro ⟨hlen, -⟩
      exact ⟨0, (-1, []), hval 0, (hbel 0).mpr hlen⟩

/-- The scanners stay inside the packet exactly when it holds the cookie's place and, behind the
cookie, a list of options that each of them can walk to an end. -/
theorem scanners_inside_iff (base len : ℕ) (p : NetParams) (m : Mem) :
    StaysInside base len p m ↔
      optionsStart ≤ len ∧ (bytes m bpVend 4 = bootpVendorMagic →
        BootpChain base (optionsStart + len) m len optionsStart p ∧
        DhcpChain m len optionsStart p ∧ MessageChain m len optionsStart) := by
  have hbootp := withCookie_below_iff m len p (bootpVendorProcess base len p)
  have hdhcp := withCookie_below_iff m len p (dhcpOptionsProcess p)
  rw [bootpVendorProcess, bootpVendorLoop_below_iff _ _ _ _ _ (Nat.le_refl _)] at hbootp
  rw [dhcpOptionsProcess, dhcpOptions_below_iff _ _ _ (Nat.le_refl _)] at hdhcp
  have htype := dhcpMessageType_inside_iff m len
  constructor
  · rintro ⟨hb, hd, ht, -⟩
    refine ⟨(htype.mp ht).1, fun hmagic ↦ ⟨(hbootp.mp hb).2 hmagic, (hdhcp.mp hd).2 hmagic, ?_⟩⟩
    exact (htype.mp ht).2 hmagic
  · rintro ⟨hlen, hchain⟩
    have hb := hbootp.mpr ⟨hlen, fun hmagic ↦ (hchain hmagic).1⟩
    have hd := hdhcp.mpr ⟨hlen, fun hmagic ↦ (hchain hmagic).2.1⟩
    have ht := htype.mpr ⟨hlen, fun hmagic ↦ (hchain hmagic).2.2⟩
    refine ⟨hb, hd, ht, fun m' hm ↦ ⟨Reader.value_congr hb hm, Reader.value_congr hd hm, ?_⟩⟩
    obtain ⟨fuel, r, hvalue, hbelow⟩ := ht
    exact ⟨fuel, r, hvalue, (Reader.value_congr hbelow hm).trans hvalue⟩

/-- An OFFER of 240 bytes, which ends with the cookie. -/
def bareOffer : List UInt8 :=
  [2, 1, 6, 0, 1, 2, 3, 4] ++ List.replicate 228 0 ++ bootpVendorMagic

def noParams : NetParams where
  netOurSubnetMask := noAddress
  netOurGatewayIP := noAddress
  netOurDNSIP := noAddress
  netOurHostName := []
  netOurRootPath := []
  netOurNISDomain := []
  netBootFileSize := 0
  dhcpLeasetime := noAddress
  netDHCPServerIP := noAddress
  bpFile := []

/-- The packet is taken, and the first option is read behind it. -/
theorem scanners_inside_bareOffer :
    (bootpCheckPkt [1, 2, 3, 4] 68 67 240).value (fun k ↦ bareOffer.getD k 0xff) = 0 ∧
      ¬ StaysInside 0 240 noParams (fun k ↦ bareOffer.getD k 0xff) := by
  constructor
  · decide +kernel
  · intro h
    have hread : 240 ∈ (withCookie noParams (dhcpOptionsProcess noParams)).reads
        (fun k ↦ bareOffer.getD k 0xff) := by
      decide +kernel
    exact absurd (h.dhcp 240 hread) (Nat.lt_irrefl 240)

end UBoot.Net.BootpBounds
