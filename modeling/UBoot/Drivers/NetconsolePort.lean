import UBoot.Drivers.Netconsole
import UBoot.Env.Caches
import UBoot.Net.UdpRoundTrip

namespace UBoot.Drivers.NetconsolePort

open Lib.CString Lib.Memory LibGeneric.Vsprintf Env.Caches Net.Frames Net.UdpRoundTrip Netconsole

/-- The end of `nc_start`. -/
def ncServer (env : CStr → Option CStr) (s : Vars) : Vars :=
  let ourIp := stringToIp (env (ascii "ipaddr"))
  let netmask := stringToIp (env (ascii "netmask"))
  let broadcast := s.ncIp = 0xffffffff ∨
    netmask &&& ourIp = netmask &&& s.ncIp ∧ netmask ||| s.ncIp = 0xffffffff
  { s with ncEther := if broadcast then netBcastAddr else netEtherNullAddr }

def ncStart (env : CStr → Option CStr) (s : Vars) : ℤ × Vars :=
  let s := { s with ncPort := 6666 }
  match env (ascii "ncip") with
  | none => (0, ncServer env { s with ncIp := 0xffffffff })
  | some ncip =>
    let s := { s with ncIp := stringToIp (some ncip) }
    if s.ncIp = 0 then (-1, s)
    else match strchr ncip 0x3a with
      | none => (0, ncServer env s)
      | some p =>
        let port := (simpleStrtoul (ncip.drop (p + 1)) 10).1
        (0, ncServer env { s with ncPort := port.toUInt16.toInt16 })

/-- The arguments of `NetSendUDPPacket`, with the host that it is called on. -/
structure Call where
  host : Host
  ether : List UInt8
  dest : ℕ
  dport : ℕ
  sport : ℕ
  len : ℕ

/-- `memcpy (pkt, buf, len)` and the call behind it, in `NcStart` and in `nc_send_packet`. -/
def udpCall (s : Vars) (n : Host) (buf : List UInt8) : Call where
  host := { n with netTxPacket := store n.netTxPacket (netEthHdrSize n + ipHdrSize) buf }
  ether := s.ncEther
  dest := s.ncIp.toNat
  dport := s.port.toNat
  sport := s.port.toNat
  len := buf.length

/-- `NcStart`, where `none` waits for input. -/
def netLoopStart (s : Vars) (n : Host) (outputPacket : List UInt8) : Option Call :=
  if outputPacket = [] ∨ s.ncEther ≠ netEtherNullAddr then none
  else some (udpCall s n outputPacket)

/-- `nc_send_packet`. `active` is the state of the device when there is one, `initialised` what
`eth_init` says, and `looped` the host in `NetLoop (NETCONS)`. -/
def ncSendPacket (s : Vars) (active : Option Bool) (initialised : Bool) (n looped : Host)
    (buf : List UInt8) : Option Call :=
  match active with
  | none => none
  | some active =>
    if s.ncEther = netEtherNullAddr then
      if active then none else netLoopStart s looped buf
    else if !active && !initialised then none
    else some (udpCall s n buf)

/-- The destination port in a frame of a host. -/
def udpDst (n : Host) (frame : List UInt8) : ℕ :=
  load16 (fun k ↦ frame.getD k 0) (netEthHdrSize n + 22)

/-- The console has one port, for what comes in and for what goes out. -/
structure PortFilter (s : Vars) (port : ℕ) : Prop where
  accepts : ∀ (pkt : Mem) (dest : UInt16) (len : UInt32), len ≠ 0 →
    ((ncInputPacket s pkt dest.toUInt32 len).map Prod.fst = some 1 ↔ dest.toNat = port)
  sends : ∀ active initialised n looped buf call frame,
    n.netOurEther.length = 6 → looped.netOurEther.length = 6 →
    ncSendPacket s active initialised n looped buf = some call →
    Transmits call.host call.ether call.dest call.dport call.sport call.len frame →
    udpDst call.host frame = port

/-- A number as it is written with decimal digits. -/
def decimalText (digits : List ℕ) : CStr := digits.map fun d ↦ UInt8.ofNat (0x30 + d)

def decimalValue (digits : List ℕ) : ℕ := digits.foldl (fun v d ↦ v * 10 + d) 0

theorem simpleStrtoul_decimalText {digits : List ℕ} (hdigits : ∀ d ∈ digits, d < 10) :
    (simpleStrtoul (decimalText digits) 10).1 = UInt32.ofNat (decimalValue digits) := by
  have hread (ds : List ℕ) (hds : ∀ d ∈ ds, d < 10) :
      strtoulDigits 10 0 (decimalText ds) = (UInt32.ofNat (decimalValue ds), []) := by
    have h := strtoulDigits_decimal ds hds 0 (show isdigit (first ([] : CStr)) = false by decide)
    rwa [List.append_nil] at h
  have hnotX : ∀ d < 10, UInt8.ofNat (0x30 + d) ≠ 0x78 := by decide
  have hten : ¬ (10 : ℕ) = 0 := by decide
  rw [simpleStrtoul, if_neg hten, if_neg hten]
  split_ifs with hzero hx
  · cases digits with
    | nil => cases hzero
    | cons d digits =>
      cases digits with
      | nil =>
        have hend : first ([] : CStr) ≠ 0x78 := by decide
        exact absurd hx.1 hend
      | cons d' digits => exact absurd hx.1 (hnotX d' (hdigits d' (by simp)))
  · cases digits with
    | nil => cases hzero
    | cons d digits =>
      obtain ⟨hd, hrest⟩ := List.forall_mem_cons.mp hdigits
      have hd0 : d = 0 := by
        have hall : ∀ d < 10, UInt8.ofNat (0x30 + d) = 0x30 → d = 0 := by decide
        exact hall d hd hzero
      have htail : (decimalText (d :: digits)).drop 1 = decimalText digits := rfl
      rw [htail, hread digits hrest, decimalValue, decimalValue, hd0, List.foldl_cons]
  · rw [hread digits hdigits]

theorem toNat_port (w : UInt16) : w.toInt16.toInt32.toUInt32.toNat =
    if w.toNat < 32768 then w.toNat else w.toNat + 4294901760 := by
  have hextend : w.toInt16.toInt32.toUInt32.toNat = (w.toBitVec.signExtend 32).toNat := rfl
  have hnat : w.toBitVec.toNat = w.toNat := rfl
  have hlt := w.toNat_lt
  rw [hextend, BitVec.toNat_signExtend, BitVec.msb_eq_decide, BitVec.toNat_setWidth, hnat,
    Nat.mod_eq_of_lt (by omega)]
  simp only [decide_eq_true_eq]
  split_ifs <;> omega

section Filter

variable {s : Vars} {q : List UInt8} {w : UInt16}

theorem accepted_iff (h : Rep s q) (pkt : Mem) (dest : UInt32) {len : UInt32} (hlen : len ≠ 0) :
    (ncInputPacket s pkt dest len).map Prod.fst = some 1 ↔ dest = s.port := by
  constructor
  · intro haccepted
    by_contra hne
    rw [ncInputPacket, if_pos (Or.inl hne)] at haccepted
    cases haccepted
  · rintro rfl
    obtain ⟨s', hs', -, -⟩ := h.inputPacket pkt hlen
    rw [hs']
    rfl

theorem udpDst_of_transmits {call : Call} {frame : List UInt8}
    (hown : call.host.netOurEther.length = 6) (hether : call.ether.length = 6)
    (h : Transmits call.host call.ether call.dest call.dport call.sport call.len frame) :
    udpDst call.host frame = call.dport % 65536 := by
  obtain ⟨m, rfl, hframed, -⟩ := h.framed hown hether
  rw [← (fields_of_bytes hframed.ip).udpDst, udpDst]
  have hbyte (k : ℕ) (hk : k < netEthHdrSize call.host + ipHdrSize + call.len) :
      (bytes m 0 (netEthHdrSize call.host + ipHdrSize + call.len)).getD k 0 = m k := by
    rw [List.getD_eq_getElem?_getD, getElem?_bytes _ hk, Option.getD_some, Nat.zero_add]
  rw [load16, load16, hbyte _ (by rw [ipHdrSize]; omega), hbyte _ (by rw [ipHdrSize]; omega)]

theorem ncSendPacket_eq {active : Option Bool} {initialised : Bool} {n looped : Host}
    {buf : List UInt8} {call : Call}
    (h : ncSendPacket s active initialised n looped buf = some call) :
    call = udpCall s looped buf ∨ call = udpCall s n buf := by
  cases active with
  | none => cases h
  | some active =>
    rw [ncSendPacket, netLoopStart] at h
    split_ifs at h
    · exact .inl (Option.some.inj h).symm
    · exact .inr (Option.some.inj h).symm

theorem portFilter_iff (h : Rep s q) (hether : s.ncEther.length = 6) (hport : s.ncPort = w.toInt16)
    {port : ℕ} (hlt : port < 65536) : PortFilter s port ↔ w.toNat = port ∧ port < 32768 := by
  have hw := w.toNat_lt
  have hnat : s.port.toNat = if w.toNat < 32768 then w.toNat else w.toNat + 4294901760 := by
    rw [Vars.port, hport, toNat_port]
  have hdest (dest : UInt16) : dest.toUInt32 = s.port ↔ dest.toNat = w.toNat ∧ w.toNat < 32768 := by
    have hd := dest.toNat_lt
    rw [← UInt32.toNat_inj, UInt16.toNat_toUInt32, hnat]
    split_ifs <;> omega
  constructor
  · intro hfilter
    have hnatPort : (UInt16.ofNat port).toNat = port := UInt16.toNat_ofNat_of_lt' hlt
    have haccepts := (hfilter.accepts (fun _ ↦ 0) (UInt16.ofNat port) 1 (by decide)).mpr hnatPort
    rw [accepted_iff h _ _ (by decide), hdest, hnatPort] at haccepts
    omega
  · rintro ⟨rfl, hsmall⟩
    constructor
    · intro pkt dest len hlen
      rw [accepted_iff h pkt _ hlen, hdest]
      exact and_iff_left hsmall
    · intro active initialised n looped buf call frame hn hlooped hcall hframe
      rcases ncSendPacket_eq hcall with rfl | rfl
      · rw [udpDst_of_transmits hlooped hether hframe, udpCall, hnat, if_pos hsmall]
        exact Nat.mod_eq_of_lt (by omega)
      · rw [udpDst_of_transmits hn hether hframe, udpCall, hnat, if_pos hsmall]
        exact Nat.mod_eq_of_lt (by omega)

end Filter

section Start

variable {env : CStr → Option CStr} {s : Vars} {q : List UInt8} {address : CStr} {digits : List ℕ}

theorem ncServer_rep (h : Rep s q) : Rep (ncServer env s) q ∧
    (ncServer env s).ncEther.length = 6 ∧ (ncServer env s).ncPort = s.ncPort := by
  refine ⟨⟨h.length, h.size, h.holds⟩, ?_, rfl⟩
  rw [ncServer]
  split_ifs <;> rfl

/-- With `0.0.0.0` the port keeps its default. -/
theorem ncStart_port (h : Rep s q) (hether : s.ncEther.length = 6) (hcolon : 0x3a ∉ address)
    (hdigits : ∀ d ∈ digits, d < 10)
    (henv : env (ascii "ncip") = some (address ++ 0x3a :: decimalText digits)) :
    Rep (ncStart env s).2 q ∧ (ncStart env s).2.ncEther.length = 6 ∧ (ncStart env s).2.ncPort =
      (if stringToIp (some (address ++ 0x3a :: decimalText digits)) = 0 then 6666
        else (UInt32.ofNat (decimalValue digits)).toUInt16).toInt16 := by
  have hcut : cut (address ++ 0x3a :: decimalText digits) 0x3a =
      some (address, decimalText digits) := cut_eq_some.mpr ⟨rfl, hcolon⟩
  rw [cut, Option.map_eq_some_iff] at hcut
  obtain ⟨p, hchr, hparts⟩ := hcut
  have hdrop := congrArg Prod.snd hparts
  dsimp only at hdrop
  rw [ncStart, henv]
  dsimp only
  split_ifs with hip
  · exact ⟨⟨h.length, h.size, h.holds⟩, hether, rfl⟩
  · rw [hchr]
    dsimp only
    rw [hdrop, simpleStrtoul_decimalText hdigits]
    refine ncServer_rep ?_
    exact ⟨h.length, h.size, h.holds⟩

/-- The upper half of the ports does not pass through a `short`. -/
theorem nc_port_filter_iff (h : Rep s q) (hether : s.ncEther.length = 6) (hcolon : 0x3a ∉ address)
    (hdigits : ∀ d ∈ digits, d < 10) (hpos : 1 ≤ decimalValue digits)
    (hlt : decimalValue digits ≤ 65535)
    (henv : env (ascii "ncip") = some (address ++ 0x3a :: decimalText digits)) :
    PortFilter (ncStart env s).2 (decimalValue digits) ↔
      if stringToIp (some (address ++ 0x3a :: decimalText digits)) = 0 then
        decimalValue digits = 6666
      else decimalValue digits < 32768 := by
  obtain ⟨hrep, hether', hport⟩ := ncStart_port h hether hcolon hdigits henv
  rw [portFilter_iff hrep hether' hport (by omega)]
  split_ifs with hip
  · constructor
    · rintro ⟨hdefault, -⟩
      exact hdefault.symm
    · intro hdefault
      rw [hdefault]
      decide
  · have hnat : (UInt32.ofNat (decimalValue digits)).toUInt16.toNat = decimalValue digits := by
      rw [UInt32.toNat_toUInt16, UInt32.toNat_ofNat']
      omega
    rw [hnat]
    exact and_iff_right rfl

end Start

/-- An environment with the console at `10.0.0.1`. -/
def consoleEnv (digits : List ℕ) (name : CStr) : Option CStr :=
  if name = ascii "ncip" then some (ascii "10.0.0.1" ++ 0x3a :: decimalText digits) else none

theorem consoleEnv_ip : ∀ digits ∈ [[6, 6, 6, 6], [4, 0, 0, 0, 0]],
    stringToIp (some (ascii "10.0.0.1" ++ 0x3a :: decimalText digits)) ≠ 0 := by
  decide +kernel

theorem nc_port_filter_iff_default :
    consoleEnv [6, 6, 6, 6] (ascii "ncip") = some (ascii "10.0.0.1:6666") ∧
      PortFilter (ncStart (consoleEnv [6, 6, 6, 6]) (booted netEtherNullAddr 0 0)).2 6666 := by
  have henv : consoleEnv [6, 6, 6, 6] (ascii "ncip") =
      some (ascii "10.0.0.1" ++ 0x3a :: decimalText [6, 6, 6, 6]) := if_pos rfl
  have hfilter := nc_port_filter_iff (rep_booted netEtherNullAddr 0 0) rfl (by decide) (by decide)
    (by decide) (by decide) henv
  rw [if_neg (consoleEnv_ip _ (by decide))] at hfilter
  exact ⟨henv, hfilter.mpr (by decide)⟩

/-- A packet to the configured port 40000 is not taken. -/
theorem nc_port_40000 :
    consoleEnv [4, 0, 0, 0, 0] (ascii "ncip") = some (ascii "10.0.0.1:40000") ∧
      (ncInputPacket (ncStart (consoleEnv [4, 0, 0, 0, 0]) (booted netEtherNullAddr 0 0)).2
        (fun _ ↦ 65) (40000 : UInt16).toUInt32 1).map Prod.fst = some 0 := by
  have henv : consoleEnv [4, 0, 0, 0, 0] (ascii "ncip") =
      some (ascii "10.0.0.1" ++ 0x3a :: decimalText [4, 0, 0, 0, 0]) := if_pos rfl
  obtain ⟨-, -, hport⟩ := ncStart_port (rep_booted netEtherNullAddr 0 0) rfl (by decide)
    (by decide) henv
  rw [if_neg (consoleEnv_ip _ (by decide))] at hport
  refine ⟨henv, ?_⟩
  rw [ncInputPacket, Vars.port, hport, if_pos (by decide)]
  rfl

end UBoot.Drivers.NetconsolePort
