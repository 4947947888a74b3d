import Mathlib.Data.List.Induction
import UBoot.Net.BootpBounds

namespace UBoot.Net.DhcpOptions

open Lib.CString Lib.Memory Lib.ReadLog Bootp BootpBounds

/-- An option with a code, a length and data, of the length RFC 2132 asks for at least. -/
structure Opt where
  code : UInt8
  data : List UInt8
  code_ne_pad : code ≠ 0
  code_ne_end : code ≠ endOption
  length_lt : data.length < 256
  length_fixed : code ∈ [1, 3, 6, 51, 54] → 4 ≤ data.length
  length_type : code = 53 → 1 ≤ data.length

/-- One element of the option field: a pad option or an option with data. -/
inductive Item
  | pad
  | option (o : Opt)

def Opt.encode (o : Opt) : List UInt8 := o.code :: UInt8.ofNat o.data.length :: o.data

def Item.encode : Item → List UInt8
  | .pad => [0]
  | .option o => o.encode

/-- The option field with its end option. -/
def encode (items : List Item) : List UInt8 := items.flatMap Item.encode ++ [endOption]

def options (items : List Item) : List Opt := items.filterMap fun
  | .pad => none
  | .option o => some o

/-- The data of the last option with this code, as far as the field has room, or the old value. -/
def lastValue (os : List Opt) (code : UInt8) (room : ℕ) (old : List UInt8) : List UInt8 :=
  ((os.filter (·.code == code)).getLast?.map (·.data.take room)).getD old

/-- The parameters after the options `os`, but for the boot file. -/
structure LastValues (os : List Opt) (p p' : NetParams) : Prop where
  subnetMask : p'.netOurSubnetMask = lastValue os 1 4 p.netOurSubnetMask
  gatewayIP : p'.netOurGatewayIP = lastValue os 3 4 p.netOurGatewayIP
  dnsIP : p'.netOurDNSIP = lastValue os 6 4 p.netOurDNSIP
  hostName : p'.netOurHostName = lastValue os 12 31 p.netOurHostName
  rootPath : p'.netOurRootPath = lastValue os 17 63 p.netOurRootPath
  leasetime : p'.dhcpLeasetime = lastValue os 51 4 p.dhcpLeasetime
  serverIP : p'.netDHCPServerIP = lastValue os 54 4 p.netDHCPServerIP
  nisDomain : p'.netOurNISDomain = p.netOurNISDomain
  bootFileSize : p'.netBootFileSize = p.netBootFileSize

/-- The value of the message type option, -1 when there is none. -/
def messageType (os : List Opt) : ℤ :=
  match os.find? (·.code == 53) with
  | some o => (first o.data).toNat
  | none => -1

/-- The boot file option counts when the packet has no boot file of its own, and then the first one
with a text. -/
def BootFile (os : List Opt) (old new : CStr) : Prop :=
  if first old ≠ 0 then new = old
  else match os.find? fun o ↦ o.code == 67 && first o.data != 0 with
    | some o => new = o.data.take 127
    | none => first new = 0

/-- The offsets of options that stand one behind the other from `pos` on. -/
def offsets : ℕ → List Opt → List ℕ
  | _, [] => []
  | pos, o :: os => pos :: offsets (pos + o.encode.length) os

/-- The options that start below `bound`. -/
def startBelow (bound : ℕ) : ℕ → List Opt → List Opt
  | _, [] => []
  | pos, o :: os => if bound ≤ pos then [] else o :: startBelow bound (pos + o.encode.length) os

/-- The options up to the first message type. -/
def upToType : List Opt → List Opt
  | [] => []
  | o :: os => if o.code = 53 then [o] else o :: upToType os

/-- What an option does to the parameters. -/
def apply (p : NetParams) (o : Opt) : NetParams :=
  (dhcpOption p o.code o.data.length).2 (o.data.take (dhcpOption p o.code o.data.length).1)

section Values

theorem lastValue_concat (os : List Opt) (o : Opt) (code : UInt8) (room : ℕ) (old : List UInt8) :
    lastValue (os ++ [o]) code room old = lastValue [o] code room (lastValue os code room old) := by
  rw [lastValue, List.filter_append]
  by_cases hcode : o.code = code
  · simp [lastValue, hcode]
  · simp [lastValue, hcode]

theorem lastValue_singleton (o : Opt) (code : UInt8) (room : ℕ) (old : List UInt8) :
    lastValue [o] code room old =
      if o.code.toNat = code.toNat then o.data.take room else old := by
  by_cases hcode : o.code = code
  · simp [lastValue, hcode]
  · have hne : o.code.toNat ≠ code.toNat := mt UInt8.toNat_inj.mp hcode
    simp [lastValue, hcode, hne]

theorem take_truncateSz (room : ℕ) (data : List UInt8) :
    data.take (truncateSz (room + 1) data.length) = data.take room := by
  rw [truncateSz]
  split_ifs with h
  · rfl
  · rw [List.take_length, List.take_of_length_le (by omega)]

theorem apply_lastValues (p : NetParams) (o : Opt) : LastValues [o] p (apply p o) := by
  have hhost := take_truncateSz 31 o.data
  have hroot := take_truncateSz 63 o.data
  rw [apply]
  generalize hd : dhcpOption p o.code o.data.length = d
  rw [dhcpOption] at hd
  split at hd
  case h_8 hcode =>
    split at hd <;> subst hd <;> constructor <;> simp [lastValue_singleton, hcode]
  all_goals subst hd; constructor <;> simp_all [lastValue_singleton]

theorem LastValues.concat {os : List Opt} {o : Opt} {p q r : NetParams} (h : LastValues os p q)
    (h' : LastValues [o] q r) : LastValues (os ++ [o]) p r where
  subnetMask := by rw [lastValue_concat, ← h.subnetMask, h'.subnetMask]
  gatewayIP := by rw [lastValue_concat, ← h.gatewayIP, h'.gatewayIP]
  dnsIP := by rw [lastValue_concat, ← h.dnsIP, h'.dnsIP]
  hostName := by rw [lastValue_concat, ← h.hostName, h'.hostName]
  rootPath := by rw [lastValue_concat, ← h.rootPath, h'.rootPath]
  leasetime := by rw [lastValue_concat, ← h.leasetime, h'.leasetime]
  serverIP := by rw [lastValue_concat, ← h.serverIP, h'.serverIP]
  nisDomain := by rw [h'.nisDomain, h.nisDomain]
  bootFileSize := by rw [h'.bootFileSize, h.bootFileSize]

theorem foldl_lastValues (os : List Opt) (p : NetParams) :
    LastValues os p (os.foldl apply p) := by
  induction os using List.reverseRecOn with
  | nil => exact ⟨rfl, rfl, rfl, rfl, rfl, rfl, rfl, rfl, rfl⟩
  | append_singleton os o ih =>
    rw [List.foldl_append, List.foldl_cons, List.foldl_nil]
    exact ih.concat (apply_lastValues _ o)

theorem apply_bpFile (p : NetParams) (o : Opt) :
    (apply p o).bpFile =
      if o.code = 67 ∧ first p.bpFile = 0 ∧ o.data ≠ [] then o.data.take 127 else p.bpFile := by
  have htake := take_truncateSz 127 o.data
  have hpos : 0 < truncateSz 128 o.data.length ↔ o.data ≠ [] := by
    rw [truncateSz, ← List.length_pos_iff]
    split_ifs <;> omega
  have hcode : o.code = 67 ↔ o.code.toNat = 67 := UInt8.toNat_inj.symm
  rw [apply]
  generalize hd : dhcpOption p o.code o.data.length = d
  rw [dhcpOption] at hd
  split at hd
  case h_8 => split at hd <;> subst hd <;> simp_all
  all_goals subst hd; simp_all

theorem foldl_bootFile (os : List Opt) (p : NetParams) :
    BootFile os p.bpFile (os.foldl apply p).bpFile := by
  induction os generalizing p with
  | nil =>
    rw [BootFile]
    split_ifs with h
    · rfl
    · exact not_not.mp h
  | cons o os ih =>
    have hrest := ih (apply p o)
    rw [List.foldl_cons]
    rw [apply_bpFile] at hrest
    split_ifs at hrest with h
    · obtain ⟨hcode, hold, hdata⟩ := h
      have hfirst : first (o.data.take 127) = first o.data := by
        cases hd : o.data with
        | nil => rfl
        | cons c l => rfl
      rw [BootFile, hfirst] at hrest
      rw [BootFile, if_neg (not_not_intro hold)]
      by_cases hnul : first o.data = 0
      · rw [if_neg (not_not_intro hnul)] at hrest
        rw [List.find?_cons_of_neg (by simp [hnul])]
        exact hrest
      · rw [if_pos hnul] at hrest
        rw [List.find?_cons_of_pos (by simp [hcode, hnul])]
        exact hrest
    · rw [BootFile] at hrest ⊢
      by_cases hold : first p.bpFile = 0
      · rw [List.find?_cons_of_neg]
        · exact hrest
        · intro hfind
          simp only [Bool.and_eq_true, beq_iff_eq, bne_iff_ne] at hfind
          refine h ⟨hfind.1, hold, ?_⟩
          rintro hnil
          exact hfind.2 (by rw [hnil]; rfl)
      · rw [if_pos hold] at hrest ⊢
        exact hrest

end Values

section Scanners

variable {m : Mem} {pos : ℕ} {o : Opt} {os : List Opt}

/-- The options `os` and an end option stand at `pos`. -/
def StandsAt (m : Mem) (pos : ℕ) (os : List Opt) : Prop :=
  bytes m pos (encode (os.map .option)).length = encode (os.map .option)

theorem encode_cons (o : Opt) (os : List Opt) :
    encode ((o :: os).map .option) = o.encode ++ encode (os.map .option) := by
  simp [encode, Item.encode]

theorem encode_length (o : Opt) : o.encode.length = o.data.length + 2 := rfl

theorem StandsAt.stop (h : StandsAt m pos []) : m pos = endOption := by
  have h := apply_of_bytes h (i := 0) (by decide)
  exact h

/-- What stands at `pos` when an option is followed by `rest`. -/
theorem bytes_option {rest : List UInt8} {n : ℕ} (h : bytes m pos n = o.encode ++ rest) :
    m pos = o.code ∧ (m (pos + 1)).toNat = o.data.length ∧
      bytes m (pos + 2) o.data.length = o.data ∧
      bytes m (pos + (o.data.length + 2)) rest.length = rest := by
  obtain ⟨hopt, hrest⟩ := bytes_eq_append h
  have hcode := apply_of_bytes hopt (i := 0) (by rw [encode_length]; omega)
  have hlen := apply_of_bytes hopt (i := 1) (by rw [encode_length]; omega)
  have hdata := (bytes_eq_append (a := [o.code, UInt8.ofNat o.data.length]) hopt).2
  refine ⟨hcode, ?_, hdata, hrest⟩
  rw [hlen]
  exact Nat.mod_eq_of_lt o.length_lt

theorem StandsAt.head (h : StandsAt m pos (o :: os)) :
    m pos = o.code ∧ (m (pos + 1)).toNat = o.data.length ∧
      bytes m (pos + 2) o.data.length = o.data ∧ StandsAt m (pos + (o.data.length + 2)) os := by
  rw [StandsAt, encode_cons] at h
  exact bytes_option h

theorem dhcpOption_le (p : NetParams) (o : Opt) :
    (dhcpOption p o.code o.data.length).1 ≤ o.data.length := by
  have hfixed := o.length_fixed
  have htrunc (room : ℕ) : truncateSz (room + 1) o.data.length ≤ o.data.length := by
    rw [truncateSz]
    split_ifs <;> omega
  have hcode (c : UInt8) : o.code.toNat = c.toNat → o.code = c := UInt8.toNat_inj.mp
  rw [dhcpOption]
  split
  case h_1 h => exact hfixed (by simp [hcode 1 h])
  case h_2 h => exact hfixed (by simp [hcode 3 h])
  case h_3 h => exact hfixed (by simp [hcode 6 h])
  case h_4 => exact htrunc 31
  case h_5 => exact htrunc 63
  case h_6 h => exact hfixed (by simp [hcode 51 h])
  case h_7 h => exact hfixed (by simp [hcode 54 h])
  case h_8 =>
    split_ifs
    · exact htrunc 127
    · exact Nat.zero_le _
  case h_9 => exact Nat.zero_le _

theorem dhcpOptions_value (fuel : ℕ) (p : NetParams) (h : StandsAt m pos os)
    (hfuel : optionsStart + bootpHdrSize ≤ pos + fuel) :
    (dhcpOptions fuel pos p).value m =
      ((startBelow (optionsStart + bootpHdrSize) pos os).foldl apply p,
        offsets pos (startBelow (optionsStart + bootpHdrSize) pos os)) := by
  induction fuel generalizing pos p os with
  | zero =>
    cases os with
    | nil => rfl
    | cons o os =>
      have hbound : optionsStart + bootpHdrSize ≤ pos := hfuel
      rw [startBelow, if_pos hbound]
      rfl
  | succ fuel ih =>
    rw [dhcpOptions]
    split_ifs with hbound
    · cases os with
      | nil => rfl
      | cons o os =>
        rw [startBelow, if_pos hbound]
        rfl
    rw [Reader.value_bind, Reader.value_read]
    cases os with
    | nil =>
      rw [if_pos h.stop]
      rfl
    | cons o os =>
      obtain ⟨hcode, hlen, hdata, hrest⟩ := h.head
      rw [if_neg (hcode ▸ o.code_ne_end), Reader.value_bind, Reader.value_read, hcode, hlen]
      have hcopy : bytes m (pos + 2) (dhcpOption p o.code o.data.length).1 =
          o.data.take (dhcpOption p o.code o.data.length).1 := by
        obtain ⟨b, hb⟩ := Nat.exists_eq_add_of_le (dhcpOption_le p o)
        rw [← bytes_take m (pos + 2) _ b, ← hb, hdata]
      rw [Reader.value_bind, Reader.value_readBytes, hcopy, Reader.value_bind, Reader.value_pure,
        startBelow, if_neg hbound, encode_length, List.foldl_cons, offsets, encode_length,
        Nat.add_assoc pos, ih _ hrest (by omega)]
      rfl

theorem bootpVendorLoop_visits (base stop fuel : ℕ) (p : NetParams) (h : StandsAt m pos os)
    (hstop : pos + (encode (os.map .option)).length ≤ stop) (hfuel : stop ≤ pos + fuel) :
    ((bootpVendorLoop base stop fuel pos p).value m).2 = offsets pos os := by
  induction os generalizing pos fuel p with
  | nil =>
    cases fuel with
    | zero => rfl
    | succ fuel =>
      rw [bootpVendorLoop]
      split_ifs with hbound
      · rfl
      · rw [Reader.value_bind, Reader.value_read, if_pos h.stop]
        rfl
  | cons o os ih =>
    obtain ⟨hcode, hlen, -, hrest⟩ := h.head
    rw [encode_cons, List.length_append, encode_length] at hstop
    cases fuel with
    | zero => omega
    | succ fuel =>
      have hbound : ¬ stop ≤ pos := by omega
      have hnext : pos + o.data.length + 2 ≤ stop := by omega
      rw [bootpVendorLoop, if_neg hbound, Reader.value_bind, Reader.value_read,
        if_neg (hcode ▸ o.code_ne_end), if_neg (hcode ▸ o.code_ne_pad), Reader.value_bind,
        Reader.value_read, hlen]
      dsimp only
      rw [if_pos hnext, Reader.value_bind, Reader.value_bind, Reader.value_pure, offsets,
        encode_length]
      rw [Nat.add_assoc pos, ih _ _ hrest (by omega) (by omega)]

theorem messageTypeLoop_value (fuel : ℕ) (h : StandsAt m pos os) (hfuel : os.length < fuel) :
    (messageTypeLoop fuel pos).value m = some (messageType os, offsets pos (upToType os)) := by
  induction os generalizing pos fuel with
  | nil =>
    cases fuel with
    | zero => omega
    | succ fuel =>
      rw [messageTypeLoop, Reader.value_bind, Reader.value_read, if_pos h.stop]
      rfl
  | cons o os ih =>
    obtain ⟨hcode, hlen, hdata, hrest⟩ := h.head
    cases fuel with
    | zero => omega
    | succ fuel =>
      rw [messageTypeLoop, Reader.value_bind, Reader.value_read,
        if_neg (hcode ▸ o.code_ne_end)]
      by_cases htype : o.code = 53
      · have hbyte : m (pos + 2) = first o.data := by
          rw [apply_of_bytes hdata (i := 0) (o.length_type htype), first, List.headD_eq_head?_getD,
            List.head?_eq_getElem?, List.getElem?_eq_getElem (o.length_type htype)]
          rfl
        rw [if_pos (hcode.trans htype), Reader.value_bind, Reader.value_read, Reader.value_pure,
          messageType, List.find?_cons_of_pos (by simp [htype]), upToType, if_pos htype, hbyte]
        rfl
      · rw [if_neg (hcode ▸ htype), Reader.value_bind, Reader.value_read, hlen, Nat.add_assoc pos,
          Reader.value_bind, ih _ hrest (Nat.lt_of_succ_lt_succ hfuel), Reader.value_pure,
          upToType, if_neg htype, offsets, encode_length]
        rw [messageType, messageType, List.find?_cons_of_neg (by simp [htype])]
        rfl

end Scanners

/-- A packet with the cookie and, behind it, an option field that ends in the packet. -/
structure OptionField (items : List Item) (len : ℕ) (m : Mem) : Prop where
  cookie : bytes m bpVend 4 = bootpVendorMagic
  field : bytes m optionsStart (encode items).length = encode items
  inside : optionsStart + (encode items).length ≤ len

/-- Every parameter has the value of its last option, and the scanners visit the same options. -/
structure LastWins (items : List Item) (base len : ℕ) (p : NetParams) (m : Mem) : Prop where
  values : LastValues (options items) p ((withCookie p (dhcpOptionsProcess p)).value m).1
  bootFile : ((withCookie p (dhcpOptionsProcess p)).value m).1.bpFile =
    lastValue (options items) 67 127 p.bpFile
  type : ∃ fuel r, (dhcpMessageType fuel).value m = some r ∧ r.1 = messageType (options items)
  visits : ((withCookie p (dhcpOptionsProcess p)).value m).2 =
    ((withCookie p (bootpVendorProcess base len p)).value m).2

/-- What the scanners do with a field without pad options: `DhcpOptionsProcess` takes the options
that start in its first 548 bytes. -/
structure Scanned (os : List Opt) (base len : ℕ) (p : NetParams) (m : Mem) : Prop where
  values : LastValues (startBelow (optionsStart + bootpHdrSize) optionsStart os) p
    ((withCookie p (dhcpOptionsProcess p)).value m).1
  bootFile : BootFile (startBelow (optionsStart + bootpHdrSize) optionsStart os) p.bpFile
    ((withCookie p (dhcpOptionsProcess p)).value m).1.bpFile
  visits : ((withCookie p (dhcpOptionsProcess p)).value m).2 =
    offsets optionsStart (startBelow (optionsStart + bootpHdrSize) optionsStart os)
  type : ∀ fuel, os.length < fuel → (dhcpMessageType fuel).value m =
    some (messageType os, offsets optionsStart (upToType os))
  vendorVisits : ((withCookie p (bootpVendorProcess base len p)).value m).2 =
    offsets optionsStart os

theorem withCookie_value {m : Mem} (h : bytes m bpVend 4 = bootpVendorMagic) (p : NetParams)
    (x : Reader (NetParams × List ℕ)) : (withCookie p x).value m = x.value m := by
  rw [withCookie, Reader.value_bind, Reader.value_readBytes, if_pos h]

/-- The options of an OFFER or ACK without pads, in any order, mean the same to all scanners. -/
theorem options_scanned (os : List Opt) (base len : ℕ) (p : NetParams) (m : Mem)
    (h : OptionField (os.map .option) len m) : Scanned os base len p m := by
  have hstands : StandsAt m optionsStart os := h.field
  have hdhcp : (withCookie p (dhcpOptionsProcess p)).value m = _ :=
    (withCookie_value h.cookie p _).trans (dhcpOptions_value bootpHdrSize p hstands (Nat.le_refl _))
  have hnocookie : ¬ bytes m bpVend 4 ≠ bootpVendorMagic := not_not_intro h.cookie
  have hvendor : ((withCookie p (bootpVendorProcess base len p)).value m).2 =
      offsets optionsStart os := by
    rw [withCookie_value h.cookie, bootpVendorProcess]
    refine bootpVendorLoop_visits _ _ _ p hstands ?_ (Nat.le_refl _)
    have := h.inside
    omega
  refine ⟨?_, ?_, ?_, ?_, hvendor⟩
  · rw [hdhcp]
    exact foldl_lastValues _ p
  · rw [hdhcp]
    exact foldl_bootFile _ p
  · rw [hdhcp]
  · intro fuel hfuel
    rw [dhcpMessageType, Reader.value_bind, Reader.value_readBytes, if_neg hnocookie]
    exact messageTypeLoop_value fuel hstands hfuel

/-- The message type of an OFFER. -/
def offerType : Opt where
  code := 53
  data := [2]
  code_ne_pad := by decide
  code_ne_end := by decide
  length_lt := by decide
  length_fixed := by decide
  length_type := by decide

def subnetMask : Opt where
  code := 1
  data := [255, 255, 255, 0]
  code_ne_pad := by decide
  code_ne_end := by decide
  length_lt := by decide
  length_fixed := by decide
  length_type := by decide

/-- An option with a text. -/
def textOption (code : UInt8) (n : ℕ) (c : UInt8)
    (h : code ≠ 0 ∧ code ≠ endOption ∧ code ∉ [1, 3, 6, 51, 54] ∧ code ≠ 53) (hn : n < 256) :
    Opt where
  code := code
  data := List.replicate n c
  code_ne_pad := h.1
  code_ne_end := h.2.1
  length_lt := by rwa [List.length_replicate]
  length_fixed hcode := absurd hcode h.2.2.1
  length_type hcode := absurd hcode h.2.2.2

/-- A packet with this header and an option field. -/
def packetWith (header : List UInt8) (items : List Item) : Mem := fun k ↦
  (header ++ bootpVendorMagic ++ encode items).getD k 0

theorem optionField_packetWith {header : List UInt8} (hheader : header.length = bpVend)
    (items : List Item) :
    OptionField items (optionsStart + (encode items).length) (packetWith header items) := by
  have hall := bytes_getD (header ++ bootpVendorMagic ++ encode items) 0
  obtain ⟨hfront, hfield⟩ := bytes_eq_append hall
  obtain ⟨-, hcookie⟩ := bytes_eq_append hfront
  refine ⟨?_, ?_, Nat.le_refl _⟩
  · rw [hheader, Nat.zero_add] at hcookie
    exact hcookie
  · rw [List.length_append, hheader, Nat.zero_add] at hfield
    exact hfield

/-- A packet with nothing but an option field. -/
def packetOf (items : List Item) : Mem := fun k ↦
  (List.replicate 236 0 ++ bootpVendorMagic ++ encode items).getD k 0

theorem optionField_packetOf (items : List Item) :
    OptionField items (optionsStart + (encode items).length) (packetOf items) :=
  optionField_packetWith List.length_replicate items

/-- Two boot files. -/
def twoBootFiles : List Opt :=
  [offerType, textOption 67 1 97 (by decide) (by decide),
    textOption 67 1 98 (by decide) (by decide)]

/-- A mask behind a pad. -/
def paddedMask : List Item := [.option offerType, .pad, .option subnetMask]

/-- A mask behind 771 bytes of other options. -/
def farMask : List Opt :=
  offerType :: List.replicate 3 (textOption 43 255 0 (by decide) (by decide)) ++ [subnetMask]

def packetLen (items : List Item) : ℕ := optionsStart + (encode items).length

/-- Of two boot files the first one is taken, the pad is read as an option with a length, and the
scan ends with the 548th byte. -/
theorem not_lastWins :
    (OptionField (twoBootFiles.map .option) (packetLen (twoBootFiles.map .option))
        (packetOf (twoBootFiles.map .option)) ∧
      ¬ LastWins (twoBootFiles.map .option) 0 (packetLen (twoBootFiles.map .option)) noParams
        (packetOf (twoBootFiles.map .option))) ∧
    (OptionField paddedMask (packetLen paddedMask) (packetOf paddedMask) ∧
      ¬ LastWins paddedMask 0 (packetLen paddedMask) noParams (packetOf paddedMask)) ∧
    (OptionField (farMask.map .option) (packetLen (farMask.map .option))
        (packetOf (farMask.map .option)) ∧
      ¬ LastWins (farMask.map .option) 0 (packetLen (farMask.map .option)) noParams
        (packetOf (farMask.map .option))) := by
  refine ⟨⟨optionField_packetOf _, ?_⟩, ⟨optionField_packetOf _, ?_⟩,
    ⟨optionField_packetOf _, ?_⟩⟩
  · intro h
    exact absurd h.bootFile (by decide +kernel)
  · intro h
    exact absurd h.values.subnetMask (by decide +kernel)
  · intro h
    exact absurd h.values.subnetMask (by decide +kernel)

theorem options_scanned_twoBootFiles :
    OptionField (twoBootFiles.map .option) (packetLen (twoBootFiles.map .option))
        (packetOf (twoBootFiles.map .option)) ∧
      Scanned twoBootFiles 0 (packetLen (twoBootFiles.map .option)) noParams
        (packetOf (twoBootFiles.map .option)) :=
  ⟨optionField_packetOf _, options_scanned _ _ _ _ _ (optionField_packetOf _)⟩

end UBoot.Net.DhcpOptions
