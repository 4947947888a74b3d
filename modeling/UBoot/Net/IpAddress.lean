import UBoot.Env.Caches
import UBoot.LibGeneric.Sprintf

namespace UBoot.Net.IpAddress

open Lib.CString LibGeneric.Vsprintf LibGeneric.Sprintf Env.Nvedit Env.Caches

/-- `ip_to_string`; the CPU is big-endian, so that `ntohl` changes nothing. -/
def ipToString (x : UInt32) : Option CStr :=
  sprintf (ascii "%d.%d.%d.%d") [.int ((x >>> 24) &&& 0xff).toNat, .int ((x >>> 16) &&& 0xff).toNat,
    .int ((x >>> 8) &&& 0xff).toNat, .int ((x >>> 0) &&& 0xff).toNat]

section Text

/-- Four numbers with dots between them. -/
def dotted (a b c d : ℕ) : CStr :=
  numberDec a ++ 0x2e :: (numberDec b ++ 0x2e :: (numberDec c ++ 0x2e :: (numberDec d ++ [])))

theorem sprintf_dotted {a b c d : ℕ} (ha : a < 256) (hb : b < 256) (hc : c < 256) (hd : d < 256) :
    sprintf (ascii "%d.%d.%d.%d") [.int a, .int b, .int c, .int d] = some (dotted a b c d) := by
  have hdecimal {n : ℕ} (h : n < 256) :
      number n 10 (-1) (-1) { noFlags with sign := true } = numberDec n :=
    number_decimal (by omega)
  rw [dotted, ← hdecimal ha, ← hdecimal hb, ← hdecimal hc, ← hdecimal hd]
  rfl

theorem simpleStrtoul_numberDec (n : ℕ) {rest : CStr} (hrest : isdigit (first rest) = false)
    (hx : first rest ≠ 0x78) : simpleStrtoul (numberDec n ++ rest) 10 = (UInt32.ofNat n, rest) := by
  rcases Nat.eq_zero_or_pos n with rfl | hn
  · have hzero : first (numberDec 0 ++ rest) = 0x30 := rfl
    have hdrop : (numberDec 0 ++ rest).drop 1 = rest := rfl
    rw [simpleStrtoul, if_pos hzero, hdrop, if_neg fun h ↦ hx h.1, if_neg (by decide),
      strtoulDigits_stop (Nat.le_refl 10) 0 hrest]
    rfl
  · have hlt : ∀ d ∈ (Nat.digits 10 n).reverse, d < 10 := fun d hd ↦
      Nat.digits_lt_base (by decide) (List.mem_reverse.mp hd)
    have hdigits := strtoulDigits_decimal (Nat.digits 10 n).reverse hlt 0 hrest
    rw [foldl_digits] at hdigits
    rw [numberDec, if_neg (by omega), simpleStrtoul, if_neg (first_decimal_append hn rest).2,
      if_neg (by decide)]
    exact hdigits

theorem parseNumbers_dotted (a b c d : ℕ) : parseNumbers 10 4 (dotted a b c d) =
    [UInt32.ofNat a, UInt32.ofNat b, UInt32.ofNat c, UInt32.ofNat d] := by
  have hdot (n : ℕ) (rest : CStr) :
      simpleStrtoul (numberDec n ++ 0x2e :: rest) 10 = (UInt32.ofNat n, 0x2e :: rest) :=
    simpleStrtoul_numberDec n (by rfl) (show (0x2e : UInt8) ≠ 0x78 by decide)
  have hend : simpleStrtoul (numberDec d ++ []) 10 = (UInt32.ofNat d, []) :=
    simpleStrtoul_numberDec d (by rfl) (by decide)
  rw [dotted, parseNumbers, hdot, parseNumbers, List.drop_one, List.tail_cons, hdot, parseNumbers,
    List.drop_one, List.tail_cons, hdot, parseNumbers, List.drop_one, List.tail_cons, hend,
    parseNumbers]

end Text

section Bytes

theorem toNat_ofNat_of_lt {n : ℕ} (h : n < 4294967296) : (UInt32.ofNat n).toNat = n :=
  UInt32.toNat_ofNat_of_lt' h

/-- One byte is shifted in. -/
theorem shiftIn {a n : ℕ} (ha : a < 16777216) (hn : n < 256) :
    (UInt32.ofNat a <<< 8) ||| (UInt32.ofNat n &&& 0xff) = UInt32.ofNat (a * 256 + n) := by
  have hlow : n &&& 255 = n := by
    have h := Nat.and_two_pow_sub_one_eq_mod n 8
    rw [Nat.mod_eq_of_lt hn] at h
    exact h
  have hhigh : (UInt32.ofNat a <<< 8).toNat = a <<< 8 := by
    have h8 : (8 : UInt32).toNat % 32 = 8 := by decide
    rw [UInt32.toNat_shiftLeft, h8, toNat_ofNat_of_lt (by omega), Nat.mod_eq_of_lt]
    rw [Nat.shiftLeft_eq]
    omega
  have hmask : (UInt32.ofNat n &&& 0xff).toNat = n &&& 255 := by
    rw [UInt32.toNat_and, toNat_ofNat_of_lt (by omega)]
    rfl
  apply UInt32.toNat_inj.mp
  rw [UInt32.toNat_or, hhigh, hmask, hlow, ← Nat.shiftLeft_add_eq_or_of_lt hn, Nat.shiftLeft_eq,
    toNat_ofNat_of_lt (by omega)]

theorem byte_toNat (x : UInt32) (k : ℕ) (hk : k < 32) :
    ((x >>> UInt32.ofNat k) &&& 0xff).toNat = x.toNat / 2 ^ k % 256 := by
  have hshift : (x >>> UInt32.ofNat k).toNat = x.toNat / 2 ^ k := by
    rw [UInt32.toNat_shiftRight, toNat_ofNat_of_lt (by omega), Nat.mod_eq_of_lt hk,
      Nat.shiftRight_eq_div_pow]
  have hmask := Nat.and_two_pow_sub_one_eq_mod (x.toNat / 2 ^ k) 8
  rw [UInt32.toNat_and, hshift]
  exact hmask

theorem stringToIp_dotted {a b c d : ℕ} (ha : a < 256) (hb : b < 256) (hc : c < 256)
    (hd : d < 256) : stringToIp (some (dotted a b c d)) =
      UInt32.ofNat (((a * 256 + b) * 256 + c) * 256 + d) := by
  have hzero : (0 : UInt32) = UInt32.ofNat 0 := rfl
  rw [stringToIp, parseNumbers_dotted, hzero]
  simp only [List.foldl_cons, List.foldl_nil]
  rw [shiftIn (by decide) ha, shiftIn (by omega) hb, shiftIn (by omega) hc, shiftIn (by omega) hd,
    Nat.zero_mul, Nat.zero_add]

theorem stringToIp_ipToString (x : UInt32) :
    ∃ s, ipToString x = some s ∧ stringToIp (some s) = x := by
  have h₂₄ : ((x >>> 24) &&& 0xff).toNat = x.toNat / 2 ^ 24 % 256 := byte_toNat x 24 (by decide)
  have h₁₆ : ((x >>> 16) &&& 0xff).toNat = x.toNat / 2 ^ 16 % 256 := byte_toNat x 16 (by decide)
  have h₈ : ((x >>> 8) &&& 0xff).toNat = x.toNat / 2 ^ 8 % 256 := byte_toNat x 8 (by decide)
  have h₀ : ((x >>> 0) &&& 0xff).toNat = x.toNat / 2 ^ 0 % 256 := byte_toNat x 0 (by decide)
  rw [ipToString, h₂₄, h₁₆, h₈, h₀]
  have hbyte (n : ℕ) : n % 256 < 256 := Nat.mod_lt n (by decide)
  refine ⟨_, sprintf_dotted (hbyte _) (hbyte _) (hbyte _) (hbyte _), ?_⟩
  have hlt := x.toNat_lt
  rw [stringToIp_dotted (hbyte _) (hbyte _) (hbyte _) (hbyte _)]
  apply UInt32.toNat_inj.mp
  rw [toNat_ofNat_of_lt (by omega)]
  omega

end Bytes

/-- Any call that sets the variable sets the address. -/
theorem setenv_ipaddr {ca : ℕ → CStr → Bool} {g g' : Globals} {arg : CStr}
    (h : doSetenv ca g (ascii "ipaddr") [some arg] = some (0, g')) :
    g'.bi_ip_addr = stringToIp (some arg) := by
  have hdefine {g₁ : Globals} (hdef : define g₁ (ascii "ipaddr") [some arg] = some (0, g')) :
      g'.bi_ip_addr = stringToIp (some arg) := by
    obtain ⟨hnone, -⟩ | ⟨arg', g₂, harg, -, rfl⟩ := define_caches hdef
    · cases hnone
    · cases harg
      rw [updateCaches_ip, if_pos rfl]
  rw [doSetenv, Option.bind_eq_some_iff] at h
  obtain ⟨found, -, h⟩ := h
  cases hold : found.oldval with
  | none =>
    rw [hold] at h
    exact hdefine h
  | some oldval =>
    rw [hold] at h
    dsimp only at h
    obtain ⟨permitted, -, h⟩ := Option.bind_eq_some_iff.mp h
    cases permitted with
    | none => cases h
    | some g₁ =>
      obtain ⟨d, -, h⟩ := Option.bind_eq_some_iff.mp h
      exact hdefine h

/-- The text of an address reads back as the address, in both parsers. -/
theorem ip_round_trip (x : UInt32) : ∃ s, ipToString x = some s ∧ stringToIp (some s) = x ∧
    ∀ ca g g', doSetenv ca g (ascii "ipaddr") [some s] = some (0, g') → g'.bi_ip_addr = x := by
  obtain ⟨s, hs, hx⟩ := stringToIp_ipToString x
  exact ⟨s, hs, hx, fun ca g g' h ↦ (setenv_ipaddr h).trans hx⟩

theorem ip_round_trip_home : ∃ g', doSetenv (fun _ _ ↦ false) homeBoard (ascii "ipaddr")
    [some (ascii "192.168.0.1")] = some (0, g') ∧ g'.bi_ip_addr = 0xc0a80001 := by
  have hret : (doSetenv (fun _ _ ↦ false) homeBoard (ascii "ipaddr")
      [some (ascii "192.168.0.1")]).map (·.1) = some 0 := by
    decide +kernel
  obtain ⟨⟨r, g'⟩, hrun, rfl⟩ := Option.map_eq_some_iff.mp hret
  obtain ⟨s, hs, -, hset⟩ := ip_round_trip 0xc0a80001
  have htext : ipToString 0xc0a80001 = some (ascii "192.168.0.1") := by decide +kernel
  cases hs.symm.trans htext
  exact ⟨g', hrun, hset _ _ _ hrun⟩

end UBoot.Net.IpAddress
