import UBoot.Httpd.Uip

namespace UBoot.Httpd.FrameIntegrity

open Lib.Memory Appcall Uip Uip.Stack

variable (s : Stack)

/-- `uip_process` behind the fix-up of the length. -/
def start : Stack := { s with appdata := uipLlhLen + 40 }.fixLen

/-- The connection whose segment the frame is, if the checks of the IP and TCP headers pass. -/
def segmentOf : Option ℕ :=
  if s.buf 14 = 0x45 ∧ ¬ (s.buf 20 &&& 0x3f ≠ 0 ∨ s.buf 21 ≠ 0) ∧ s.destipaddr = s.hostaddr ∧
      s.uipIpchksum = 0xffff ∧ s.buf 23 = 6 ∧ (start s).uipTcpchksum = 0xffff then
    (List.range uipConns).find? s.isFor
  else none

/-- The segment acknowledges what the connection has outstanding. -/
def acks (c : Conn) : Bool :=
  s.hasFlag tcpAck && c.len ≠ 0 && s.ackno = uipAdd32 c.sndNxt c.len

/-- How many bytes are skipped in front of the data that the application gets, of a segment with `n`
bytes of data; `none` where it gets none. -/
def skipped (c : Conn) (n : ℕ) : Option ℕ :=
  match c.state with
  | .synRcvd => if acks s c then some 0 else none
  | .established =>
    if s.hasFlag tcpFin then if c.len = 0 then some 0 else none
    else some (if s.hasFlag tcpUrg then min (s.urgp % 256) n else s.urgp)
  | _ => none

/-- The condition on a frame of `s.len` bytes: the IP header counts the headers, and the data that
are handed on have no TCP options and no urgent pointer in front of them and end in the frame. -/
def Fits : Prop :=
  ∀ k ∈ segmentOf s, s.hasFlag tcpRst = false →
    s.tcpHlen + 20 ≤ s.ipLen ∧
      (s.ipLen = s.tcpHlen + 20 ∨ s.seqno = (s.conns k).rcvNxt →
        ∀ u ∈ skipped s (s.conns k) (s.ipLen - (s.tcpHlen + 20)),
          u ≤ s.ipLen - (s.tcpHlen + 20) ∧
            (u < s.ipLen - (s.tcpHlen + 20) →
              u = 0 ∧ s.tcpHlen = 20 ∧ uipLlhLen + s.ipLen ≤ s.len.toNat))

/-- The range that the application gets is the payload of the frame, between the TCP header with its
options and the end of the IP packet, and it lies in the frame. -/
structure IsPayload (t : Stack) : Prop where
  start : t.appdata = uipLlhLen + 20 + s.tcpHlen
  stop : t.appdata + t.len.toNat = uipLlhLen + s.ipLen
  inside : uipLlhLen + s.ipLen ≤ s.len.toNat

/-- What `uip_process` does with a frame is sound: `uip_len` does not wrap round, and new data are
the payload. -/
inductive Sound : Option Before → Prop
  | endless : Sound none
  | done (t : Stack) (underflow : t.underflow = false) : Sound (some (.done t))
  | call (t : Stack) (next : Resume) (underflow : t.underflow = false)
      (payload : t.flags.newdata = true → IsPayload s t) : Sound (some (.call t next))

@[simp] theorem sound_done_iff {t : Stack} : Sound s (some (.done t)) ↔ t.underflow = false := by
  constructor
  · rintro ⟨⟩
    assumption
  · exact .done t

@[simp] theorem sound_call_iff {t : Stack} {next : Resume} :
    Sound s (some (.call t next)) ↔
      t.underflow = false ∧ (t.flags.newdata = true → IsPayload s t) := by
  constructor
  · rintro ⟨⟩
    exact ⟨‹_›, ‹_›⟩
  · rintro ⟨hunder, hpayload⟩
    exact .call t next hunder hpayload

section

variable {s}

theorem tcpSendNodata_underflow (f : UInt8) : (s.tcpSendNodata f).underflow = s.underflow := by
  obtain ⟨buf, ipid, h⟩ := s.tcpSendNodata_eq f
  rw [h]

theorem foundListen_underflow {t : Stack} (h : s.foundListen = some t) :
    t.underflow = s.underflow := by
  unfold Stack.foundListen at h
  split at h
  · obtain rfl := Option.some.inj h
    rfl
  · rename_i k _
    obtain ⟨c, -, rfl⟩ := Option.map_eq_some_iff.mp h
    obtain ⟨buf, ipid, h'⟩ := (setConn { s with conn := k } c).tcpSendSynack_eq
    rw [h']
    rfl

theorem input_eq : s.input =
    if s.buf 14 ≠ 0x45 then some (.done { s with appdata := uipLlhLen + 40 }.drop)
    else if s.buf 20 &&& 0x3f ≠ 0 ∨ s.buf 21 ≠ 0 then some (.done (start s).drop)
    else if s.destipaddr ≠ s.hostaddr then some (.done (start s).drop)
    else if s.uipIpchksum ≠ 0xffff then some (.done (start s).drop)
    else if s.buf 23 = 6 then (start s).tcpInput
    else if s.buf 23 ≠ 1 then some (.done (start s).drop)
    else some (.done (start s).icmpInput) := rfl

theorem start_isFor : (start s).isFor = s.isFor := rfl

/-- `uip_process` on a TCP segment that belongs to no connection. -/
theorem tcpInput_of_none (h : (List.range uipConns).find? s.isFor = none) :
    s.tcpInput = none ∨ ∃ t, s.tcpInput = some (.done t) ∧ t.underflow = s.underflow := by
  unfold Stack.tcpInput
  rw [h]
  split_ifs
  · exact .inr ⟨s.drop, rfl, rfl⟩
  · obtain ⟨buf, ipid, len, hr⟩ := s.reset_eq
    exact .inr ⟨_, rfl, by rw [hr]⟩
  · cases hl : s.foundListen with
    | none => exact .inl rfl
    | some t => exact .inr ⟨t, rfl, foundListen_underflow hl⟩
  · obtain ⟨buf, ipid, len, hr⟩ := s.reset_eq
    exact .inr ⟨_, rfl, by rw [hr]⟩

/-- A frame that is no segment of a connection reaches no application. -/
theorem input_of_none (h : segmentOf s = none) :
    s.input = none ∨ ∃ t, s.input = some (.done t) ∧ t.underflow = s.underflow := by
  rw [input_eq]
  split_ifs with hvhl hfrag hdest hip hproto hicmp
  · exact .inr ⟨_, rfl, rfl⟩
  · exact .inr ⟨_, rfl, rfl⟩
  · exact .inr ⟨_, rfl, rfl⟩
  · exact .inr ⟨_, rfl, rfl⟩
  · by_cases htcp : (start s).uipTcpchksum = 0xffff
    · apply tcpInput_of_none
      rw [start_isFor]
      rwa [segmentOf, if_pos ⟨not_not.mp hvhl, hfrag, not_not.mp hdest, not_not.mp hip, hproto, htcp⟩]
        at h
    · rw [Stack.tcpInput, if_pos htcp]
      exact .inr ⟨_, rfl, rfl⟩
  · exact .inr ⟨_, rfl, rfl⟩
  · obtain ⟨buf, len, hr⟩ := (start s).icmpInput_eq
    exact .inr ⟨_, rfl, by rw [hr]; rfl⟩

theorem input_of_some {k : ℕ} (h : segmentOf s = some k) :
    s.input = some { start s with conn := k }.found := by
  unfold segmentOf at h
  split_ifs at h with hall
  · obtain ⟨hvhl, hfrag, hdest, hip, hproto, htcp⟩ := hall
    have htcp' : (start s).tcpInput = some { start s with conn := k }.found := by
      unfold Stack.tcpInput
      rw [if_neg (by simp [htcp]), start_isFor, h]
    rw [input_eq, if_neg (not_not.mpr hvhl), if_neg hfrag, if_neg (not_not.mpr hdest),
      if_neg (not_not.mpr hip), if_pos hproto, htcp']

end

/-- The state that `uip_process` has reached at its end, or at the call of the application. -/
def stateOf : Before → Stack
  | .done t => t
  | .call t _ => t

theorem skipUrgent_underflow (h : s.underflow = true) : s.skipUrgent.underflow = true := by
  unfold Stack.skipUrgent
  split
  · simp [subLen, addRcvNxt, setConn, h]
  · simp [subLen, h]

theorem takeData_underflow : s.takeData.underflow = s.underflow := by
  unfold Stack.takeData
  split <;> rfl

theorem established_underflow (h : s.underflow = true) :
    (stateOf s.established).underflow = true := by
  unfold Stack.established
  split_ifs
  · exact h
  · exact h
  · have hskip := skipUrgent_underflow s h
    have htake := takeData_underflow s.skipUrgent
    have hupdate : s.skipUrgent.takeData.updateMss.underflow = true := htake.trans hskip
    simp only
    split <;> exact hupdate

theorem tcpSendAck_underflow : s.tcpSendAck.underflow = s.underflow := tcpSendNodata_underflow tcpAck

theorem finWait1_underflow : (stateOf s.finWait1).underflow = s.underflow := by
  have hdata : (if 0 < s.len then s.addRcvNxt s.len else s).underflow = s.underflow := by
    split <;> rfl
  unfold Stack.finWait1
  generalize (if 0 < s.len then s.addRcvNxt s.len else s) = t at hdata
  simp only
  split_ifs
  · exact hdata
  · exact hdata
  · exact hdata
  · exact (tcpSendAck_underflow t).trans hdata
  · exact hdata

theorem finWait2_underflow : (stateOf s.finWait2).underflow = s.underflow := by
  have hdata : (if 0 < s.len then s.addRcvNxt s.len else s).underflow = s.underflow := by
    split <;> rfl
  unfold Stack.finWait2
  generalize (if 0 < s.len then s.addRcvNxt s.len else s) = t at hdata
  simp only
  split_ifs
  · exact hdata
  · exact (tcpSendAck_underflow t).trans hdata
  · exact hdata

theorem switchState_underflow (h : s.underflow = true) :
    (stateOf s.switchState).underflow = true := by
  unfold Stack.switchState
  simp only
  split
  · split
    · exact (takeData_underflow _).trans h
    · exact h
  · exact established_underflow s h
  · split <;> exact h
  · exact (finWait1_underflow s).trans h
  · exact (finWait2_underflow s).trans h
  · exact (tcpSendAck_underflow s).trans h
  · split <;> exact h
  · exact h

theorem checkAck_underflow : s.checkAck.underflow = s.underflow := by
  unfold Stack.checkAck
  simp only
  split <;> rfl

/-- A segment with `n` bytes of data for the connection `c` that has passed the test of its sequence
number, in the state `t`. -/
structure Arrived (c : Conn) (n : ℕ) (t : Stack) : Prop where
  buf : t.buf = s.buf
  length : s.tcpHlen + 20 + n = s.ipLen
  len : t.len.toNat = n
  appdata : t.appdata = uipLlhLen + 40
  underflow : t.underflow = false
  state : t.connr.state = c.state
  outstanding : t.connr.len = c.len
  flags : t.flags = { ackdata := acks s c }

/-- The condition on the data of such a segment. -/
def DataFits (c : Conn) (n : ℕ) : Prop :=
  ∀ u ∈ skipped s c n, u ≤ n ∧
    (u < n → u = 0 ∧ s.tcpHlen = 20 ∧ uipLlhLen + s.ipLen ≤ s.len.toNat)

section

variable {s} {c : Conn} {n u : ℕ} {t : Stack}

theorem isPayload_iff (h : s.tcpHlen + 20 + n = s.ipLen) (happ : t.appdata = uipLlhLen + 40 + u)
    (hlen : t.len.toNat + u = n) :
    IsPayload s t ↔ u = 0 ∧ s.tcpHlen = 20 ∧ uipLlhLen + s.ipLen ≤ s.len.toNat := by
  constructor
  · rintro ⟨hstart, hstop, hinside⟩
    exact ⟨by omega, by omega, hinside⟩
  · rintro ⟨rfl, hhlen, hinside⟩
    exact ⟨by omega, by omega, hinside⟩

theorem hasFlag_congr (h : t.buf = s.buf) (f : UInt8) : t.hasFlag f = s.hasFlag f := by
  rw [hasFlag, hasFlag, tcpFlags, tcpFlags, h]

theorem len_pos_iff (h : t.len.toNat = n) : 0 < t.len ↔ 0 < n := by
  rw [UInt16.lt_iff_toNat_lt, h]
  rfl

/-- The application gets the data of a segment from `uip_buf` on. -/
theorem Arrived.call_iff (h : Arrived s c n t) {x : Stack} {next : Resume}
    (happ : x.appdata = t.appdata) (hlen : x.len = t.len) (hunder : x.underflow = t.underflow)
    (hnew : x.flags.newdata = decide (0 < t.len)) :
    Sound s (some (.call x next)) ↔
      (0 < n → s.tcpHlen = 20 ∧ uipLlhLen + s.ipLen ≤ s.len.toNat) := by
  have hpayload := isPayload_iff (t := x) (u := 0) h.length (happ.trans h.appdata)
    (by rw [hlen, h.len, Nat.add_zero])
  simp only [sound_call_iff, hunder, h.underflow, true_and, hnew, decide_eq_true_eq, len_pos_iff h.len,
    hpayload]

theorem Arrived.synRcvd_iff (h : Arrived s c n t) (hc : c.state = .synRcvd) :
    Sound s (some t.switchState) ↔ DataFits s c n := by
  simp only [Stack.switchState, h.state, h.flags, DataFits, skipped, hc]
  cases hack : acks s c with
  | false => simp [drop, h.underflow]
  | true =>
    simp only [if_true, Option.mem_def, Option.some.injEq, forall_eq', Nat.zero_le, true_and]
    apply h.call_iff
    · unfold takeData
      split <;> rfl
    · unfold takeData
      split <;> rfl
    · exact takeData_underflow _
    · unfold takeData
      split
      · rename_i hpos
        have hpos' : 0 < t.len := hpos
        simp [hpos']
      · rename_i hpos
        have hpos' : ¬ 0 < t.len := hpos
        simp [hpos']

theorem subLen_toNat {m : ℕ} (h : m ≤ t.len.toNat) : (t.subLen m).len.toNat + m = t.len.toNat := by
  have hm : (UInt16.ofNat m).toNat = m := UInt16.toNat_ofNat_of_lt' (h.trans_lt t.len.toNat_lt)
  simp only [subLen]
  rw [UInt16.toNat_sub_of_le, hm]
  · omega
  · rw [UInt16.le_iff_toNat_le, hm]
    exact h

theorem subLen_underflow {m : ℕ} (h : t.underflow = false) :
    (t.subLen m).underflow = decide (t.len.toNat < m) := by
  simp only [subLen, h, Bool.false_or]

theorem Arrived.skipUrgent_eq (h : Arrived s c n t) (hu : u ≤ n)
    (hskip : u = if s.hasFlag tcpUrg then min (s.urgp % 256) n else s.urgp) :
    t.skipUrgent.appdata = uipLlhLen + 40 + u ∧ t.skipUrgent.len.toNat + u = n ∧
      t.skipUrgent.underflow = false ∧ t.skipUrgent.flags = t.flags := by
  have hurgp : t.urgp = s.urgp := by rw [urgp, urgp, h.buf]
  have hle : u ≤ t.len.toNat := by rw [h.len]; exact hu
  have hnot : decide (t.len.toNat < u) = false := by simpa using hle
  rw [← hasFlag_congr h.buf] at hskip
  unfold Stack.skipUrgent
  simp only [hurgp, h.len]
  split
  · rename_i hurg
    rw [if_pos hurg] at hskip
    rw [← hskip]
    have hsub := subLen_toNat (t := t.addRcvNxt (UInt16.ofNat u)) hle
    have hunder := subLen_underflow (t := t.addRcvNxt (UInt16.ofNat u)) (m := u) h.underflow
    refine ⟨congrArg (· + u) h.appdata, hsub.trans h.len, hunder.trans hnot, rfl⟩
  · rename_i hurg
    rw [if_neg hurg] at hskip
    rw [← hskip]
    have hsub := subLen_toNat hle
    have hunder := subLen_underflow (t := t) (m := u) h.underflow
    refine ⟨congrArg (· + u) h.appdata, hsub.trans h.len, hunder.trans hnot, rfl⟩

/-- An urgent pointer behind the end of the data wraps `uip_len` round. -/
theorem Arrived.skipUrgent_wraps (h : Arrived s c n t) (hurg : s.hasFlag tcpUrg = false)
    (hu : n < s.urgp) : t.skipUrgent.underflow = true := by
  have hurgp : t.urgp = s.urgp := by rw [urgp, urgp, h.buf]
  rw [← hasFlag_congr h.buf] at hurg
  unfold Stack.skipUrgent
  rw [if_neg (by simp [hurg])]
  simp [subLen, hurgp, h.len, hu]

theorem Arrived.established_fin_iff (h : Arrived s c n t) (hc : c.state = .established)
    (hfin : s.hasFlag tcpFin = true) : Sound s (some t.established) ↔ DataFits s c n := by
  simp only [Stack.established, hasFlag_congr h.buf, hfin, if_true, h.outstanding, DataFits, skipped,
    hc]
  by_cases hlen : c.len = 0
  · simp only [hlen, ne_eq, not_true, if_false, if_true, Option.mem_def, Option.some.injEq,
      forall_eq', Nat.zero_le, true_and]
    exact h.call_iff rfl rfl rfl rfl
  · simp [hlen, drop, h.underflow]

theorem takeData_eq (x : Stack) : ∃ conns, x.takeData = { x with
    conns := conns
    flags := { x.flags with newdata := x.flags.newdata || decide (0 < x.len) } } := by
  unfold takeData
  split
  · rename_i hpos
    exact ⟨_, by simp only [hpos, decide_true, Bool.or_true]; rfl⟩
  · rename_i hpos
    exact ⟨x.conns, by simp only [hpos, decide_false, Bool.or_false]⟩

theorem Arrived.established_data_iff (h : Arrived s c n t) (hc : c.state = .established)
    (hfin : s.hasFlag tcpFin = false) : Sound s (some t.established) ↔ DataFits s c n := by
  simp only [Stack.established, hasFlag_congr h.buf, hfin, Bool.false_eq_true, if_false, DataFits,
    skipped, hc, Option.mem_def, Option.some.injEq, forall_eq']
  generalize hu : (if s.hasFlag tcpUrg = true then min (s.urgp % 256) n else s.urgp) = u
  by_cases hle : u ≤ n
  · obtain ⟨happ, hlen, hunder, hflags⟩ := h.skipUrgent_eq hle hu.symm
    obtain ⟨conns, htake⟩ := takeData_eq t.skipUrgent
    have hpos : 0 < t.skipUrgent.len ↔ u < n := by
      rw [UInt16.lt_iff_toNat_lt]
      change 0 < t.skipUrgent.len.toNat ↔ u < n
      omega
    rw [htake, hflags, h.flags]
    simp only [updateMss, setConn, Bool.false_or]
    by_cases hlt : u < n
    · have hnew := hpos.mpr hlt
      simp only [hnew, decide_true, Bool.true_or, if_true, sound_call_iff, hunder, true_and,
        true_implies, hle, hlt]
      exact isPayload_iff h.length happ hlen
    · have hnew := mt hpos.mp hlt
      simp only [hnew, decide_false, Bool.false_or, hle, hlt, false_implies, and_true, iff_true]
      split
      · exact .call _ _ hunder (fun hn ↦ by cases hn)
      · exact .done _ hunder
  · have hurg : s.hasFlag tcpUrg = false := by
      by_contra hurg
      rw [if_pos (by simpa using hurg)] at hu
      omega
    rw [if_neg (by simp [hurg])] at hu
    have hwraps := h.skipUrgent_wraps hurg (by omega)
    obtain ⟨conns, htake⟩ := takeData_eq t.skipUrgent
    rw [htake]
    simp only [updateMss, setConn, hle, false_and, iff_false]
    split
    · simp [hwraps]
    · simp [drop, hwraps]

theorem sound_of_notNew {r : Before} (hunder : (stateOf r).underflow = false)
    (hnew : ∀ x next, r = .call x next → x.flags.newdata = false) : Sound s (some r) := by
  cases r with
  | done x => exact .done x hunder
  | call x next =>
    refine .call x next hunder ?_
    intro hn
    rw [hnew x next rfl] at hn
    cases hn

theorem finWait1_notNew (x : Stack) (next : Resume) (h : t.finWait1 = .call x next) :
    x.flags.newdata = false := by
  unfold Stack.finWait1 at h
  generalize (if 0 < t.len then t.addRcvNxt t.len else t) = y at h
  simp only at h
  split_ifs at h
  · cases h
    rfl
  · cases h
    rfl

theorem finWait2_notNew (x : Stack) (next : Resume) (h : t.finWait2 = .call x next) :
    x.flags.newdata = false := by
  unfold Stack.finWait2 at h
  generalize (if 0 < t.len then t.addRcvNxt t.len else t) = y at h
  simp only at h
  split_ifs at h
  · cases h
    rfl

theorem Arrived.closing_sound (h : Arrived s c n t) (h₁ : c.state ≠ .synRcvd)
    (h₂ : c.state ≠ .established) : Sound s (some t.switchState) := by
  unfold Stack.switchState
  simp only [h.state]
  cases hc : c.state with
  | synRcvd => exact absurd hc h₁
  | established => exact absurd hc h₂
  | lastAck =>
    simp only
    split
    · exact .call _ _ h.underflow (fun hn ↦ by cases hn)
    · exact .done _ h.underflow
  | finWait1 => exact sound_of_notNew ((finWait1_underflow t).trans h.underflow) finWait1_notNew
  | finWait2 => exact sound_of_notNew ((finWait2_underflow t).trans h.underflow) finWait2_notNew
  | timeWait => exact .done _ ((tcpSendAck_underflow t).trans h.underflow)
  | closing =>
    simp only
    split <;> exact .done _ h.underflow
  | closed => exact .done _ h.underflow

theorem Arrived.sound_iff (h : Arrived s c n t) : Sound s (some t.switchState) ↔ DataFits s c n := by
  by_cases h₁ : c.state = .synRcvd
  · exact h.synRcvd_iff h₁
  · by_cases h₂ : c.state = .established
    · have hsw : t.switchState = t.established := by
        simp only [Stack.switchState, h.state, h₂]
      rw [hsw]
      cases hfin : s.hasFlag tcpFin with
      | true => exact h.established_fin_iff h₂ hfin
      | false => exact h.established_data_iff h₂ hfin
    · refine iff_of_true (h.closing_sound h₁ h₂) ?_
      intro u hu
      unfold skipped at hu
      split at hu
      · exact absurd ‹c.state = .synRcvd› h₁
      · exact absurd ‹c.state = .established› h₂
      · cases hu

theorem setConn_connr (d : Conn) : (t.setConn d).connr = d := by
  simp [connr, setConn]

theorem checkAck_spec (hbuf : t.buf = s.buf) (hflags : t.flags = {}) :
    t.checkAck.buf = t.buf ∧ t.checkAck.len = t.len ∧ t.checkAck.appdata = t.appdata ∧
      t.checkAck.connr.state = t.connr.state ∧ t.checkAck.connr.len = t.connr.len ∧
      t.checkAck.flags = { ackdata := acks s t.connr } := by
  have hack : t.ackno = s.ackno := by rw [ackno, ackno, hbuf]
  unfold Stack.checkAck
  simp only [hasFlag_congr hbuf, hack]
  split
  · rename_i h
    have hacks : acks s t.connr = true := by simp [acks, h]
    refine ⟨rfl, rfl, rfl, ?_, ?_, by rw [hacks]⟩
    · change (Stack.connr (t.setConn _)).state = t.connr.state
      rw [setConn_connr]
      split <;> rfl
    · change (Stack.connr (t.setConn _)).len = t.connr.len
      rw [setConn_connr]
      split <;> rfl
  · rename_i h
    have hacks : acks s t.connr = false := by
      rw [Bool.eq_false_iff]
      intro ha
      apply h
      simpa [acks, and_assoc] using ha
    exact ⟨rfl, rfl, rfl, rfl, rfl, by rw [hacks]; exact hflags⟩

end

/-- The segment behind the subtraction of its headers. -/
def stripped (k : ℕ) : Stack :=
  { start s with conn := k, flags := {} }.subLen (s.tcpHlen + 20)

theorem stripped_underflow (hs : s.underflow = false) (k : ℕ) :
    (stripped s k).underflow = decide (s.ipLen < s.tcpHlen + 20) := by
  have hlen : (start s).len.toNat = s.ipLen := fixLen_len _
  have hsub := subLen_underflow (t := { start s with conn := k, flags := {} })
    (m := s.tcpHlen + 20) hs
  rwa [hlen] at hsub

theorem found_eq (k : ℕ) : ({ start s with conn := k }).found =
    if s.hasFlag tcpRst then
      .call { setConn { start s with conn := k, flags := {} }
        { s.conns k with state := .closed } with flags := { abort := true } } .drop
    else if 0 < (stripped s k).len ∧ s.seqno ≠ (s.conns k).rcvNxt then
      .done (stripped s k).tcpSendAck
    else (stripped s k).checkAck.switchState := rfl

theorem stripped_arrived (hs : s.underflow = false) {k : ℕ} (h : s.tcpHlen + 20 ≤ s.ipLen) :
    Arrived s (s.conns k) (s.ipLen - (s.tcpHlen + 20)) (stripped s k).checkAck := by
  have hlen : (start s).len.toNat = s.ipLen := fixLen_len _
  have hsub := subLen_toNat (t := { start s with conn := k, flags := {} })
    (m := s.tcpHlen + 20) (h.trans_eq hlen.symm)
  obtain ⟨hbuf, hn, happ, hstate, hout, hflags⟩ :=
    checkAck_spec (s := s) (t := stripped s k) rfl rfl
  refine ⟨hbuf, by omega, ?_, happ, ?_, hstate, hout, hflags⟩
  · rw [hn]
    change (stripped s k).len.toNat + (s.tcpHlen + 20) = (start s).len.toNat at hsub
    omega
  · rw [checkAck_underflow, stripped_underflow s hs]
    simpa using h

theorem not_sound_of_underflow {r : Before} (h : (stateOf r).underflow = true) :
    ¬ Sound s (some r) := by
  intro hsound
  cases hsound with
  | done x hunder => exact absurd (h.symm.trans hunder) (by decide)
  | call x next hunder _ => exact absurd (h.symm.trans hunder) (by decide)

/-- What `uip_process` makes of a frame is sound just when the frame fits. -/
theorem frame_integrity_iff (hs : s.underflow = false) : Sound s s.input ↔ Fits s := by
  cases hk : segmentOf s with
  | none =>
    have hfits : Fits s := by
      intro k hmem
      rw [hk] at hmem
      cases hmem
    refine iff_of_true ?_ hfits
    rcases input_of_none hk with hin | ⟨t, hin, hunder⟩
    · rw [hin]
      exact .endless
    · rw [hin]
      exact .done t (hunder.trans hs)
  | some k =>
    have hfits : Fits s ↔ (s.hasFlag tcpRst = false → s.tcpHlen + 20 ≤ s.ipLen ∧
        (s.ipLen = s.tcpHlen + 20 ∨ s.seqno = (s.conns k).rcvNxt →
          DataFits s (s.conns k) (s.ipLen - (s.tcpHlen + 20)))) := by
      simp only [Fits, hk, Option.mem_def, Option.some.injEq, forall_eq', DataFits]
    rw [hfits, input_of_some hk, found_eq]
    cases hrst : s.hasFlag tcpRst with
    | true =>
      simp only [if_true]
      refine iff_of_true (.call _ _ hs fun hn ↦ ?_) (fun h ↦ by cases h)
      cases hn
    | false =>
      simp only [Bool.false_eq_true, if_false, true_implies]
      by_cases hlen : s.tcpHlen + 20 ≤ s.ipLen
      · have harrived := stripped_arrived s hs (k := k) hlen
        have hn : (stripped s k).len.toNat = s.ipLen - (s.tcpHlen + 20) := by
          rw [← harrived.len, (checkAck_spec (s := s) (t := stripped s k) rfl rfl).2.1]
        have hunder : (stripped s k).underflow = false := by
          rw [stripped_underflow s hs]
          simpa using hlen
        by_cases hseq : 0 < (stripped s k).len ∧ s.seqno ≠ (s.conns k).rcvNxt
        · -- a segment out of sequence is only acknowledged
          rw [if_pos hseq]
          refine iff_of_true (.done _ ((tcpSendAck_underflow _).trans hunder)) ⟨hlen, ?_⟩
          have hpos := (len_pos_iff hn).mp hseq.1
          rintro (heq | heq)
          · omega
          · exact absurd heq hseq.2
        · rw [if_neg hseq, harrived.sound_iff]
          have hpre : s.ipLen = s.tcpHlen + 20 ∨ s.seqno = (s.conns k).rcvNxt := by
            by_cases heq : s.seqno = (s.conns k).rcvNxt
            · exact .inr heq
            · have hzero : ¬ 0 < (stripped s k).len := fun hpos ↦ hseq ⟨hpos, heq⟩
              rw [len_pos_iff hn] at hzero
              exact .inl (by omega)
          simp only [hlen, hpre, true_implies, true_and]
      · have hunder : (stripped s k).underflow = true := by
          rw [stripped_underflow s hs]
          simpa using hlen
        refine iff_of_false ?_ (fun h ↦ hlen h.1)
        apply not_sound_of_underflow
        split
        · exact (tcpSendAck_underflow _).trans hunder
        · exact switchState_underflow _ ((checkAck_underflow _).trans hunder)

/-- An open connection from port 1024 of 192.168.0.2 to port 80 of 192.168.0.1. -/
def openConn : Conn where
  ripaddr := 0xc0a80002
  lport := 80
  rport := 1024
  rcvNxt := ⟨0, 0, 3, 0xe8⟩
  sndNxt := ⟨0, 0, 0, 1⟩
  len := 0
  mss := 1446
  initialmss := 1446
  sa := 0
  sv := 4
  rto := 3
  state := .established
  timer := 3
  nrtx := 0

/-- The stack with that connection and a frame in `uip_buf`. -/
def withFrame (frame : List UInt8) : Stack where
  hostaddr := 0xc0a80001
  listenports := [80]
  conns _ := openConn
  conn := 0
  iss := ⟨0, 0, 0, 0⟩
  ipid := 0
  buf i := frame.getD i 0
  len := UInt16.ofNat frame.length
  appdata := 0
  sappdata _ := 0
  slen := 0
  flags := {}
  underflow := false

/-- Ethernet header and IP header of a segment, whose total length and checksum are given. -/
def headers (totalLength chksum : UInt8) : List UInt8 :=
  [0, 1, 2, 3, 4, 5, 6, 7, 8, 9, 10, 11, 8, 0, 0x45, 0, 0, totalLength, 0, 1, 0, 0, 0x40, 6, 0xf9,
    chksum, 0xc0, 0xa8, 0, 2, 0xc0, 0xa8, 0, 1]

/-- The segment `AB`, with padding. -/
def plainFrame : List UInt8 :=
  headers 42 0x79 ++ [4, 0, 0, 80, 0, 0, 3, 0xe8, 0, 0, 0, 1, 0x50, 0x18, 0x20, 0, 0xc4, 0xfb, 0, 0,
    0x41, 0x42, 0, 0, 0, 0]

/-- The same segment with four bytes of TCP options. -/
def optionsFrame : List UInt8 :=
  headers 46 0x75 ++ [4, 0, 0, 80, 0, 0, 3, 0xe8, 0, 0, 0, 1, 0x60, 0x18, 0x20, 0, 0xb2, 0xf5, 0, 0,
    1, 1, 1, 1, 0x41, 0x42]

/-- The range in `uip_buf` that the application gets as new data. -/
def newData : Option Before → Option (ℕ × UInt16)
  | some (.call t _) => if t.flags.newdata then some (t.appdata, t.len) else none
  | _ => none

instance : Decidable (Fits s) :=
  inferInstanceAs (Decidable (∀ k ∈ segmentOf s, s.hasFlag tcpRst = false → _ ∧ (_ → ∀ u ∈ _, _)))

theorem frame_integrity_plain :
    newData (withFrame plainFrame).input = some (54, 2) ∧
      Sound (withFrame plainFrame) (withFrame plainFrame).input := by
  have hfits : Fits (withFrame plainFrame) := by decide +kernel
  refine ⟨by decide +kernel, ?_⟩
  exact (frame_integrity_iff (withFrame plainFrame) rfl).mpr hfits

/-- With options the application gets these instead of the data. -/
theorem frame_integrity_options :
    ¬ ∀ s : Stack, s.len.toNat ≤ 1514 → s.underflow = false → Sound s s.input := by
  intro hall
  have hsound := hall (withFrame optionsFrame) (by decide) rfl
  have hdata : newData (withFrame optionsFrame).input = some (54, 2) := by decide +kernel
  have hhlen : (withFrame optionsFrame).tcpHlen = 24 := by decide
  cases hin : (withFrame optionsFrame).input with
  | none => simp [hin, newData] at hdata
  | some r =>
    rw [hin] at hsound hdata
    cases r with
    | done t => simp [newData] at hdata
    | call t next =>
      simp only [newData] at hdata
      split_ifs at hdata with hnew
      have hstart := (((sound_call_iff _).mp hsound).2 hnew).start
      simp only [Option.some.injEq, Prod.mk.injEq] at hdata
      rw [hhlen, hdata.1] at hstart
      exact absurd hstart (by decide)

end UBoot.Httpd.FrameIntegrity
