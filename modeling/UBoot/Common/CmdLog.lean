import UBoot.Lib.CString
import UBoot.Lib.Patch
import UBoot.Lib.Ring
import UBoot.LibGeneric.Vsprintf

namespace UBoot.Common.CmdLog

open Lib.CString Lib.Patch Lib.Ring LibGeneric.Vsprintf

def logbuffLen : ℕ := 16384

def logbuffMask : UInt32 := 16383

/-- `sizeof buf`. -/
def bufSize : ℕ := 1024

/-- `default_message_loglevel`, which nothing changes. -/
def defaultMessageLoglevel : ℕ := 4

/-- The variables of `cmd_log.c`, and those in front of the log buffer. -/
structure Vars where
  buf : List UInt8
  msgLevel : ℤ
  consoleLoglevel : UInt32
  logBufAt : UInt32
  logBuf : List UInt8
  logStart : UInt32
  logSize : UInt32
  loggedChars : UInt32

/-- Where the `i`th character of the log is. -/
def Vars.place (v : Vars) (i : UInt32) : ℕ := ((v.logStart + i) &&& logbuffMask).toNat

/-- A turn of the inner loop of `logbuff_printk`. -/
def logChar (v : Vars) (c : UInt8) : Vars :=
  let logBuf := v.logBuf.set (v.place v.logSize) c
  if v.logSize < UInt32.ofNat logbuffLen then
    { v with logBuf, logSize := v.logSize + 1, loggedChars := v.loggedChars + 1 }
  else { v with logBuf, logStart := v.logStart + 1, loggedChars := v.loggedChars + 1 }

def newline : UInt8 := 0x0a

/-- The inner loop with `n` characters left: where it ends, and `line_feed`. -/
def logLine : ℕ → ℕ → Vars → Option (ℕ × Bool × Vars)
  | 0, p, v => some (p, false, v)
  | n + 1, p, v => do
    let c ← v.buf[p]?
    if c = newline then return (p, true, logChar v c)
    logLine n (p + 1) (logChar v c)

/-- A level in front of a message, as `<4>`. -/
def hasLevel (p : CStr) : Bool :=
  first p = 0x3c && 0x30 ≤ first (p.drop 1) && first (p.drop 1) ≤ 0x37 && first (p.drop 2) = 0x3e

/-- The part of the outer loop in front of the inner one: where the inner loop starts, and `msg`. The
prefix is stored in front of the message. -/
def startMessage (p : ℕ) (v : Vars) : Option (ℕ × ℕ × Vars) :=
  if v.msgLevel < 0 then
    if hasLevel (v.buf.drop p) then
      some (p, p + 3, { v with msgLevel := (first (v.buf.drop (p + 1))).toNat - 0x30 })
    else
      (patch v.buf (p - 3) [0x3c, UInt8.ofNat (defaultMessageLoglevel + 0x30), 0x3e]).map fun buf ↦
        (p - 3, p, { v with buf, msgLevel := defaultMessageLoglevel })
  else some (p, p, v)

/-- The outer loop, with what is printed on the console. `none` is an access outside of an array. -/
def printkLoop (bufEnd : ℕ) : ℕ → ℕ → Vars → Option (CStr × Vars)
  | 0, _, _ => none
  | fuel + 1, p, v =>
    if p < bufEnd then do
      let (p, msg, v) ← startMessage p v
      let (p, lineFeed, v) ← logLine (bufEnd - p) p v
      let printed :=
        if v.msgLevel < v.consoleLoglevel.toNat then (v.buf.take bufEnd).drop msg else []
      let v := if lineFeed then { v with msgLevel := -1 } else v
      let (more, v) ← printkLoop bufEnd fuel (p + 1) v
      return (printed ++ more, v)
    else some ([], v)

/-- The result, what is printed on the console, and the variables. The console is not the log buffer
itself. -/
def logbuffPrintk (v : Vars) (line : CStr) : Option (ℕ × CStr × Vars) := do
  let buf ← patch v.buf 3 (line ++ [0])
  let (printed, v) ← printkLoop (3 + line.length) (line.length + 1) 3 { v with buf }
  return (line.length, printed, v)

def logbuffPutc (v : Vars) (c : UInt8) : Option (CStr × Vars) :=
  (logbuffPrintk v [c]).map (·.2)

/-- `log reset`. -/
def logReset (v : Vars) : Vars := { v with logStart := 0, logSize := 0, loggedChars := 0 }

/-- What `log show` prints. -/
def logShow (v : Vars) : Option CStr :=
  (List.range (v.logSize &&& logbuffMask).toNat).mapM fun i ↦ v.logBuf[v.place (UInt32.ofNat i)]?

/-- What `log info` prints. -/
def logInfo (v : Vars) : CStr :=
  ascii "Logbuffer   at  " ++ numberHexSmall 8 v.logBufAt.toNat ++ [newline] ++
    ascii "log_start    =  " ++ numberHexSmall 8 v.logStart.toNat ++ [newline] ++
    ascii "log_size     =  " ++ numberHexSmall 8 v.logSize.toNat ++ [newline] ++
    ascii "logged_chars =  " ++ numberHexSmall 8 v.loggedChars.toNat ++ [newline]

def logUsage : CStr :=
  ascii "Usage:\nlog     - manipulate logbuffer\n" ++ [newline]

/-- `log append`. -/
def logAppend (v : Vars) : List CStr → Option (CStr × Vars)
  | [] => some ([], v)
  | arg :: args => do
    let (_, printed, v) ← logbuffPrintk v arg
    let (printed', v) ← logbuffPutc v (if args = [] then newline else 0x20)
    let (more, v) ← logAppend v args
    return (printed ++ printed' ++ more, v)

/-- The result, what is printed, and the variables. Without a subcommand `argv[1]` is NULL. -/
def doLog (v : Vars) : List CStr → Option (ℕ × CStr × Vars)
  | _ :: sub :: args =>
    if sub = ascii "append" then (logAppend v args).map fun r ↦ (0, r)
    else if args ≠ [] then some (1, logUsage, v)
    else if sub = ascii "show" then (logShow v).map fun s ↦ (0, s, v)
    else if sub = ascii "reset" then some (0, [], logReset v)
    else if sub = ascii "info" then some (0, logInfo v, v)
    else some (1, logUsage, v)
  | _ => none

/-- A line as it is logged: each message with its level, where `level` is that of a message that has
begun. -/
def stamped (level : Option ℕ) : CStr → CStr × Option ℕ
  | [] => ([], level)
  | c :: s =>
    let mark := level.elim (if hasLevel (c :: s) then [] else ascii "<4>") fun _ ↦ []
    let level := level.getD (if hasLevel (c :: s) then (first s).toNat - 0x30 else 4)
    let rest := stamped (if c = newline then none else some level) s
    (mark ++ c :: rest.1, rest.2)

/-- A line that is logged, or `log reset`. -/
inductive Op where
  | printk (line : CStr)
  | reset

def step (v : Vars) : Op → Option Vars
  | .printk line => (logbuffPrintk v line).map fun r ↦ r.2.2
  | .reset => some (logReset v)

def run (v : Vars) (ops : List Op) : Option Vars := ops.foldlM step v

/-- What has been logged since the last reset, and the level of a message that has begun. -/
def refStep (t : CStr × Option ℕ) : Op → CStr × Option ℕ
  | .printk line => (t.1 ++ (stamped t.2 line).1, (stamped t.2 line).2)
  | .reset => ([], t.2)

def reference (ops : List Op) : CStr × Option ℕ := ops.foldl refStep ([], none)

/-- The characters in the ring. -/
def contents (v : Vars) : Option CStr :=
  (List.range v.logSize.toNat).mapM fun i ↦ v.logBuf[v.place (UInt32.ofNat i)]?

/-- The newest text is in the ring and is shown. -/
structure Shows (v : Vars) (text : CStr) : Prop where
  ring : contents v = some (newest logbuffLen text)
  shown : logShow v = some (newest logbuffLen text)

/-- The ring holds the newest part of the text. -/
structure Logged (v : Vars) (text : CStr) : Prop where
  length : v.logBuf.length = logbuffLen
  size : v.logSize.toNat = min text.length logbuffLen
  holds : Holds v.logBuf (v.logStart.toNat % logbuffLen) (newest logbuffLen text)

section Ring

variable {v : Vars} {text : CStr}

theorem place_eq (v : Vars) (i : UInt32) :
    v.place i = (v.logStart.toNat % logbuffLen + i.toNat) % logbuffLen := by
  have hmask : logbuffMask.toNat = 2 ^ 14 - 1 := rfl
  rw [Vars.place, UInt32.toNat_and, hmask, Nat.and_two_pow_sub_one_eq_mod, UInt32.toNat_add,
    Nat.mod_mod_of_dvd _ (by decide), Nat.mod_add_mod]
  rfl

theorem Logged.newest_length (h : Logged v text) :
    (newest logbuffLen text).length = v.logSize.toNat := by
  rw [Lib.Ring.newest_length, h.size]

theorem Logged.logChar (h : Logged v text) (c : UInt8) :
    Logged (logChar v c) (text ++ [c]) := by
  have hpush := h.holds.push c
  have hsize := h.size
  have hplace : (v.logStart.toNat % logbuffLen + (newest logbuffLen text).length) %
      v.logBuf.length = v.place v.logSize := by
    rw [place_eq, h.newest_length, h.length]
  rw [hplace, h.length, enqueue_newest (by decide), h.newest_length] at hpush
  have hlt : v.logSize < UInt32.ofNat logbuffLen ↔ v.logSize.toNat < logbuffLen :=
    UInt32.lt_iff_toNat_lt
  rw [CmdLog.logChar]
  split_ifs with hroom
  · rw [hlt] at hroom
    rw [if_pos hroom] at hpush
    refine ⟨List.length_set.trans h.length, ?_, hpush⟩
    have hnext : (v.logSize + 1).toNat = v.logSize.toNat + 1 := by
      rw [UInt32.toNat_add, Nat.mod_eq_of_lt]
      · rfl
      · exact (Nat.succ_le_of_lt hroom).trans_lt (by decide)
    rw [hnext, List.length_append, List.length_singleton]
    omega
  · rw [hlt] at hroom
    rw [if_neg hroom] at hpush
    have hnext : next logbuffLen (v.logStart.toNat % logbuffLen) =
        (v.logStart + 1).toNat % logbuffLen := by
      rw [next_eq_mod (Nat.mod_lt _ (by decide)), Nat.mod_add_mod, UInt32.toNat_add,
        Nat.mod_mod_of_dvd _ (by decide)]
      rfl
    rw [hnext] at hpush
    refine ⟨List.length_set.trans h.length, ?_, hpush⟩
    rw [List.length_append, List.length_singleton]
    dsimp only
    omega

theorem Logged.read (h : Logged v text) {i : ℕ} (hi : i < (newest logbuffLen text).length) :
    v.logBuf[v.place (UInt32.ofNat i)]? = (newest logbuffLen text)[i]? := by
  have hlt : i < 2 ^ 32 := by
    have hle := h.holds.length_le
    rw [h.length] at hle
    exact (hi.trans_le hle).trans (by decide)
  rw [place_eq, UInt32.toNat_ofNat_of_lt' hlt, ← h.holds.cells i hi, h.length]

theorem Logged.contents (h : Logged v text) : contents v = some (newest logbuffLen text) := by
  rw [CmdLog.contents, ← h.newest_length]
  exact mapM_range_getElem fun i hi ↦ h.read hi

/-- A full ring is taken for an empty one. -/
theorem Logged.logShow_iff (h : Logged v text) :
    logShow v = some (newest logbuffLen text) ↔ text.length < logbuffLen := by
  have hmask : (v.logSize &&& logbuffMask).toNat = v.logSize.toNat % logbuffLen := by
    have hmask : logbuffMask.toNat = 2 ^ 14 - 1 := rfl
    rw [UInt32.toNat_and, hmask, Nat.and_two_pow_sub_one_eq_mod]
    rfl
  have hsize := h.size
  have hlength := h.newest_length
  rw [logShow, hmask]
  rcases Nat.lt_or_ge text.length logbuffLen with hlt | hge
  · rw [Nat.mod_eq_of_lt (by omega), ← hlength]
    exact iff_of_true (mapM_range_getElem fun i hi ↦ h.read hi) hlt
  · rw [hsize, Nat.min_eq_right hge, Nat.mod_self]
    refine iff_of_false ?_ (Nat.not_lt.mpr hge)
    intro hnil
    have hempty : newest logbuffLen text = [] := (Option.some.inj hnil).symm
    rw [hempty, List.length_nil, hsize, Nat.min_eq_right hge] at hlength
    exact absurd hlength (by decide)

theorem Logged.shows_iff (h : Logged v text) : Shows v text ↔ text.length < logbuffLen := by
  rw [← h.logShow_iff]
  exact ⟨Shows.shown, fun hshow ↦ ⟨h.contents, hshow⟩⟩

end Ring

/-- The characters of a text one after the other. -/
def logText (v : Vars) (t : CStr) : Vars := t.foldl logChar v

section Lines

variable {v : Vars} {a s t rest text : CStr}

theorem logChar_frame (v : Vars) (c : UInt8) :
    (logChar v c).buf = v.buf ∧ (logChar v c).msgLevel = v.msgLevel := by
  rw [logChar]
  split_ifs <;> exact ⟨rfl, rfl⟩

theorem logText_frame (v : Vars) (t : CStr) :
    (logText v t).buf = v.buf ∧ (logText v t).msgLevel = v.msgLevel := by
  induction t generalizing v with
  | nil => exact ⟨rfl, rfl⟩
  | cons c t ih =>
    obtain ⟨hbuf, hlevel⟩ := ih (logChar v c)
    obtain ⟨hbuf', hlevel'⟩ := logChar_frame v c
    exact ⟨hbuf.trans hbuf', hlevel.trans hlevel'⟩

theorem Logged.logText (h : Logged v text) (t : CStr) : Logged (logText v t) (text ++ t) := by
  induction t generalizing v text with
  | nil =>
    rw [List.append_nil]
    exact h
  | cons c t ih =>
    rw [List.append_cons]
    exact ih (h.logChar c)

theorem getElem?_middle (hbuf : v.buf = a ++ s ++ rest) {c : UInt8} (hs : s = c :: t) :
    v.buf[a.length]? = some c := by
  rw [hbuf, hs, List.append_assoc, List.cons_append]
  exact peek_append a _ c

theorem logLine_text (hbuf : v.buf = a ++ t ++ rest) (ht : newline ∉ t) :
    logLine t.length a.length v = some (a.length + t.length, false, logText v t) := by
  induction t generalizing a v with
  | nil => rfl
  | cons c t ih =>
    rw [List.mem_cons, not_or] at ht
    have hnext : (logChar v c).buf = a ++ [c] ++ t ++ rest := by
      rw [(logChar_frame v c).1, hbuf]
      simp only [List.append_assoc, List.cons_append, List.nil_append]
    have hbehind : (a ++ [c]).length = a.length + 1 := List.length_append
    have hrest := ih hnext ht.2
    rw [hbehind] at hrest
    rw [List.length_cons, logLine, getElem?_middle hbuf rfl, Option.bind_eq_bind, Option.bind_some,
      if_neg (Ne.symm ht.1), hrest, Nat.add_assoc, Nat.add_comm 1]
    rfl

/-- The loop ends behind the first newline. -/
theorem logLine_newline (hbuf : v.buf = a ++ (t ++ newline :: s) ++ rest) (ht : newline ∉ t) :
    logLine (t ++ newline :: s).length a.length v =
      some (a.length + t.length, true, logText v (t ++ [newline])) := by
  induction t generalizing a v with
  | nil =>
    rw [List.nil_append] at hbuf ⊢
    rw [List.length_cons, logLine, getElem?_middle hbuf rfl, Option.bind_eq_bind, Option.bind_some,
      if_pos rfl]
    rfl
  | cons c t ih =>
    rw [List.mem_cons, not_or] at ht
    have hnext : (logChar v c).buf = a ++ [c] ++ (t ++ newline :: s) ++ rest := by
      rw [(logChar_frame v c).1, hbuf]
      simp only [List.append_assoc, List.cons_append, List.nil_append]
    have hbehind : (a ++ [c]).length = a.length + 1 := List.length_append
    have hrest := ih hnext ht.2
    rw [hbehind] at hrest
    rw [List.cons_append, List.length_cons, logLine, getElem?_middle hbuf rfl, Option.bind_eq_bind,
      Option.bind_some, if_neg (Ne.symm ht.1), hrest, List.length_cons, Nat.add_assoc, Nat.add_comm 1]
    rfl

end Lines

section Stamps

variable {s t rest : CStr} {c : UInt8} {l : ℕ}

theorem hasLevel_append (s rest : CStr) : hasLevel (s ++ 0 :: rest) = hasLevel s := by
  match s with
  | [] => rfl
  | [x] => simp [hasLevel, first]
  | [x, y] => simp [hasLevel, first]
  | x :: y :: z :: s => rfl

theorem le_first_of_hasLevel (h : hasLevel (c :: s) = true) : 0x30 ≤ (first s).toNat := by
  simp only [hasLevel, Bool.and_eq_true, decide_eq_true_eq] at h
  exact UInt8.le_iff_toNat_le.mp h.1.1.2

theorem stamped_begun (ht : newline ∉ t) (s : CStr) :
    stamped (some l) (t ++ s) = (t ++ (stamped (some l) s).1, (stamped (some l) s).2) := by
  induction t with
  | nil => rfl
  | cons c t ih =>
    rw [List.mem_cons, not_or] at ht
    rw [List.cons_append, stamped, if_neg (Ne.symm ht.1), Option.getD_some, ih ht.2]
    rfl

theorem stamped_rest (ht : newline ∉ t) : stamped (some l) t = (t, some l) := by
  have hbegun := stamped_begun (l := l) ht []
  rwa [List.append_nil, stamped, List.append_nil] at hbegun

/-- A message that begins is stamped as one that has begun, behind its mark. -/
theorem stamped_none (c : UInt8) (s : CStr) :
    stamped none (c :: s) =
      ((if hasLevel (c :: s) then [] else ascii "<4>") ++
          (stamped (some (if hasLevel (c :: s) then (first s).toNat - 0x30 else 4)) (c :: s)).1,
        (stamped (some (if hasLevel (c :: s) then (first s).toNat - 0x30 else 4)) (c :: s)).2) := by
  rw [stamped, stamped]
  rfl

theorem stamped_newline (s : CStr) :
    stamped (some l) (newline :: s) = (newline :: (stamped none s).1, (stamped none s).2) := by
  rw [stamped, if_pos rfl]
  rfl

end Stamps

section Messages

variable {v : Vars} {a s rest text : CStr} {c : UInt8} {level : Option ℕ}

/-- The level of the message that has begun, as `msg_level` has it. -/
def HasMsgLevel (v : Vars) (level : Option ℕ) : Prop := v.msgLevel = level.elim (-1) fun l ↦ (l : ℤ)

/-- A message is begun with its mark in front. -/
structure Begun (v₀ : Vars) (a₀ mark s rest : CStr) (l : ℕ) (text : CStr) : Prop where
  buf : v₀.buf = a₀ ++ (mark ++ s) ++ 0 :: rest
  mark : newline ∉ mark
  level : v₀.msgLevel = l
  logged : Logged v₀ text

theorem startMessage_eq (h : Logged v text) (hbuf : v.buf = a ++ (c :: s) ++ 0 :: rest)
    (ha : 3 ≤ a.length) (hlevel : HasMsgLevel v level) :
    ∃ a₀ mark l msg v₀, startMessage a.length v = some (a₀.length, msg, v₀) ∧
      a₀.length + mark.length = a.length ∧ Begun v₀ a₀ mark (c :: s) rest l text ∧
      stamped level (c :: s) =
        (mark ++ (stamped (some l) (c :: s)).1, (stamped (some l) (c :: s)).2) := by
  have hdrop : v.buf.drop a.length = c :: s ++ 0 :: rest := by
    rw [hbuf, List.append_assoc, List.drop_left]
  cases level with
  | some l =>
    have hnot : ¬ v.msgLevel < 0 := by
      rw [hlevel]
      exact Int.not_lt.mpr (Nat.cast_nonneg l)
    exact ⟨a, [], l, a.length, v, if_neg hnot, rfl, ⟨hbuf, List.not_mem_nil, hlevel, h⟩, rfl⟩
  | none =>
    have hneg : v.msgLevel < 0 := by
      rw [hlevel]
      decide
    rw [startMessage, if_pos hneg, hdrop, hasLevel_append, stamped_none]
    by_cases hown : hasLevel (c :: s) = true
    · rw [if_pos hown, if_pos hown, if_pos hown]
      have hdigit := le_first_of_hasLevel hown
      have hbehind : first (v.buf.drop (a.length + 1)) = first s := by
        rw [← List.drop_drop, hdrop]
        cases s with
        | nil => exact absurd hdigit (by decide)
        | cons d s => rfl
      refine ⟨a, [], (first s).toNat - 0x30, a.length + 3, _, rfl, rfl,
        ⟨hbuf, List.not_mem_nil, ?_, ⟨h.length, h.size, h.holds⟩⟩, rfl⟩
      dsimp only
      rw [hbehind, Nat.cast_sub hdigit]
      rfl
    · rw [if_neg hown, if_neg hown, if_neg hown]
      obtain ⟨a₀, b, rfl, hb⟩ : ∃ a₀ b, a = a₀ ++ b ∧ b.length = 3 :=
        ⟨a.take (a.length - 3), a.drop (a.length - 3), (List.take_append_drop ..).symm,
          by rw [List.length_drop]; omega⟩
      have hstart : (a₀ ++ b).length - 3 = a₀.length := by
        rw [List.length_append, hb, Nat.add_sub_cancel]
      have hpatch : patch v.buf a₀.length (ascii "<4>") =
          some (a₀ ++ (ascii "<4>" ++ (c :: s)) ++ 0 :: rest) := by
        rw [hbuf, List.append_assoc, List.append_assoc, List.append_assoc a₀,
          List.append_assoc (ascii "<4>")]
        exact patch_append a₀ _ hb.symm
      let v₀ : Vars :=
        { v with
          buf := a₀ ++ (ascii "<4>" ++ (c :: s)) ++ 0 :: rest
          msgLevel := defaultMessageLoglevel }
      refine ⟨a₀, ascii "<4>", 4, (a₀ ++ b).length, v₀, ?_, ?_,
        ⟨rfl, by decide, rfl, ⟨h.length, h.size, h.holds⟩⟩, rfl⟩
      · rw [hstart]
        exact congrArg _ hpatch
      · rw [List.length_append, hb]
        rfl

/-- The variables between two calls: what has been logged, and the message that has begun. -/
structure Rep (v : Vars) (t : CStr × Option ℕ) : Prop where
  length : v.buf.length = bufSize
  level : HasMsgLevel v t.2
  logged : Logged v t.1

theorem printkLoop_end {bufEnd p : ℕ} (fuel : ℕ) (h : bufEnd ≤ p) :
    printkLoop bufEnd (fuel + 1) p v = some ([], v) := by
  rw [printkLoop, if_neg (Nat.not_lt.mpr h)]

theorem printkLoop_step (feed : Bool) {bufEnd fuel p p₀ p₁ msg : ℕ} {v₀ v₁ v₂ : Vars} {more : CStr}
    (hp : p < bufEnd) (hstart : startMessage p v = some (p₀, msg, v₀))
    (hline : logLine (bufEnd - p₀) p₀ v₀ = some (p₁, feed, v₁))
    (hmore : printkLoop bufEnd fuel (p₁ + 1) (if feed then { v₁ with msgLevel := -1 } else v₁) =
      some (more, v₂)) : ∃ printed, printkLoop bufEnd (fuel + 1) p v = some (printed, v₂) := by
  rw [printkLoop, if_pos hp, hstart, Option.bind_eq_bind, Option.bind_some]
  dsimp only
  rw [hline]
  simp only [Option.bind_eq_bind, Option.bind_some]
  rw [hmore]
  exact ⟨_, rfl⟩

/-- By induction on the number of messages: each is logged up to its newline, with its mark in front,
and then the rest of the line is the same again. -/
theorem printkLoop_eq (fuel : ℕ) (hfuel : s.length < fuel) (h : Logged v text)
    (hbuf : v.buf = a ++ s ++ 0 :: rest) (ha : 3 ≤ a.length) (hlevel : HasMsgLevel v level) :
    ∃ printed v', printkLoop (a.length + s.length) fuel a.length v = some (printed, v') ∧
      v'.buf.length = v.buf.length ∧ HasMsgLevel v' (stamped level s).2 ∧
      Logged v' (text ++ (stamped level s).1) := by
  induction fuel generalizing a s v text level with
  | zero => exact absurd hfuel (Nat.not_lt_zero _)
  | succ fuel ih =>
    cases s with
    | nil =>
      refine ⟨[], v, printkLoop_end fuel (Nat.le_refl _), rfl, hlevel, ?_⟩
      rw [stamped, List.append_nil]
      exact h
    | cons c s =>
      obtain ⟨a₀, mark, l, msg, v₀, hstart, hplace, hbegun, hstamped⟩ :=
        startMessage_eq h hbuf ha hlevel
      have hend : a.length + (c :: s).length - a₀.length = (mark ++ (c :: s)).length := by
        rw [List.length_append]
        omega
      have hlength : v₀.buf.length = v.buf.length := by
        rw [hbegun.buf, hbuf]
        simp only [List.length_append]
        omega
      have hp : a.length < a.length + (c :: s).length := by
        rw [List.length_cons]
        omega
      rw [hstamped]
      cases hcut : cut (c :: s) newline with
      | none =>
        have hnone := cut_eq_none.mp hcut
        have hline := logLine_text hbegun.buf (t := mark ++ (c :: s))
          (by rw [List.mem_append, not_or]; exact ⟨hbegun.mark, hnone⟩)
        obtain ⟨hframe, hsame⟩ := logText_frame v₀ (mark ++ (c :: s))
        have hbegan : stamped (some l) (c :: s) = (c :: s, some l) := stamped_rest hnone
        obtain ⟨fuel, rfl⟩ : ∃ n, fuel = n + 1 := ⟨fuel - 1, by rw [List.length_cons] at hfuel; omega⟩
        obtain ⟨printed, hrun⟩ := printkLoop_step false hp hstart (by rw [hend]; exact hline)
          (printkLoop_end fuel (by rw [List.length_append]; omega))
        refine ⟨printed, logText v₀ (mark ++ (c :: s)), hrun, ?_, ?_, ?_⟩
        · rw [hframe, hlength]
        · rw [hbegan]
          exact hsame.trans hbegun.level
        · rw [hbegan]
          exact hbegun.logged.logText _
      | some r =>
        obtain ⟨hsplit, hfirst⟩ := cut_eq_some.mp hcut
        have hbuf₀ : v₀.buf = a₀ ++ (mark ++ r.1 ++ newline :: r.2) ++ 0 :: rest := by
          rw [hbegun.buf, hsplit, List.append_assoc mark]
        have hline := logLine_newline hbuf₀ (by rw [List.mem_append, not_or]; exact ⟨hbegun.mark, hfirst⟩)
        rw [List.append_assoc mark, ← hsplit] at hline
        let v₁ := logText v₀ (mark ++ r.1 ++ [newline])
        obtain ⟨hframe, -⟩ := logText_frame v₀ (mark ++ r.1 ++ [newline])
        have hsum := congrArg List.length hsplit
        rw [List.length_append, List.length_cons, List.length_cons] at hsum
        have hnext : (a₀ ++ (mark ++ r.1 ++ [newline])).length = a₀.length + (mark ++ r.1).length + 1 := by
          rw [List.length_append, List.length_append, List.length_singleton, Nat.add_assoc]
        have hbufEnd : (a₀ ++ (mark ++ r.1 ++ [newline])).length + r.2.length =
            a.length + (c :: s).length := by
          rw [hnext, List.length_append, List.length_cons]
          omega
        have hbuf₁ : v₁.buf = a₀ ++ (mark ++ r.1 ++ [newline]) ++ r.2 ++ 0 :: rest := by
          rw [hframe, hbuf₀]
          simp only [List.append_assoc, List.cons_append, List.nil_append]
        have hlogged₁ : Logged { v₁ with msgLevel := -1 } (text ++ (mark ++ r.1 ++ [newline])) :=
          ⟨(hbegun.logged.logText _).length, (hbegun.logged.logText _).size,
            (hbegun.logged.logText _).holds⟩
        have hlevel₁ : HasMsgLevel { v₁ with msgLevel := -1 } none := rfl
        have hfuel₁ : r.2.length < fuel := by
          rw [List.length_cons] at hfuel
          omega
        obtain ⟨more, v', hmore, hlength', hlevel', hlogged'⟩ :=
          ih hfuel₁ hlogged₁ hbuf₁ (by rw [hnext, List.length_append]; omega) hlevel₁
        rw [hbufEnd, hnext] at hmore
        obtain ⟨printed, hrun⟩ := printkLoop_step true hp hstart (by rw [hend]; exact hline) hmore
        have hstamps := stamped_begun (l := l) hfirst (newline :: r.2)
        rw [← hsplit, stamped_newline] at hstamps
        refine ⟨printed, v', hrun, ?_, ?_, ?_⟩
        · rw [hlength', ← hlength]
          exact congrArg List.length hframe
        · rw [hstamps]
          exact hlevel'
        · rw [hstamps]
          simp only [List.append_assoc, List.cons_append, List.nil_append] at hlogged' ⊢
          exact hlogged'

end Messages

/-- The variables of an empty log. -/
structure Fresh (v : Vars) : Prop where
  bufLength : v.buf.length = bufSize
  logLength : v.logBuf.length = logbuffLen
  level : v.msgLevel = -1
  start : v.logStart = 0
  size : v.logSize = 0

/-- The line fits in `buf`, with a mark in front and its NUL behind it. -/
def Op.Short : Op → Prop
  | .printk line => line.length + 4 ≤ bufSize
  | .reset => True

section Runs

variable {v : Vars} {t : CStr × Option ℕ}

theorem Rep.printk (h : Rep v t) {line : CStr} (hline : line.length + 4 ≤ bufSize) :
    ∃ v', step v (.printk line) = some v' ∧ Rep v' (refStep t (.printk line)) := by
  have hlength := h.length
  have hinside : 3 + (line ++ [0]).length ≤ v.buf.length := by
    rw [List.length_append, List.length_singleton]
    omega
  obtain ⟨buf, hpatch⟩ := patch_of_le hinside
  obtain ⟨-, hbuf⟩ := patch_eq_some.mp hpatch
  have hfront : (v.buf.take 3).length = 3 := List.length_take_of_le (by omega)
  have htext : buf = v.buf.take 3 ++ line ++ 0 :: v.buf.drop (3 + (line ++ [0]).length) := by
    rw [hbuf]
    simp only [List.append_assoc, List.cons_append, List.nil_append]
  obtain ⟨printed, v', hrun, hbufLength, hlevel, hlogged⟩ :=
    printkLoop_eq (v := { v with buf }) (line.length + 1) (Nat.lt_succ_self _)
      ⟨h.logged.length, h.logged.size, h.logged.holds⟩ htext hfront.ge h.level
  rw [hfront] at hrun
  refine ⟨v', ?_, hbufLength.trans ((patch_length hpatch).trans hlength), hlevel, hlogged⟩
  rw [step, logbuffPrintk, hpatch, Option.bind_eq_bind, Option.bind_some, hrun]
  rfl

theorem rep_empty (hbuf : v.buf.length = bufSize) (hlog : v.logBuf.length = logbuffLen)
    (hstart : v.logStart = 0) (hsize : v.logSize = 0) {level : Option ℕ} (hlevel : HasMsgLevel v level) :
    Rep v ([], level) where
  length := hbuf
  level := hlevel
  logged := by
    have hpos : 0 < v.logBuf.length := by
      rw [hlog]
      decide
    refine ⟨hlog, ?_, ?_⟩
    · rw [hsize]
      rfl
    · have hempty : newest logbuffLen ([] : CStr) = [] := List.drop_nil
      rw [hstart, UInt32.toNat_zero, Nat.zero_mod, hempty]
      exact holds_nil (List.ne_nil_of_length_pos hpos)

theorem Rep.reset (h : Rep v t) : Rep (logReset v) (refStep t .reset) :=
  rep_empty (v := logReset v) h.length h.logged.length rfl rfl h.level

theorem Rep.step (h : Rep v t) (op : Op) (hop : op.Short) :
    ∃ v', step v op = some v' ∧ Rep v' (refStep t op) := by
  cases op with
  | printk line => exact h.printk hop
  | reset => exact ⟨_, rfl, h.reset⟩

/-- The ring holds the newest text in every state that is reached. -/
theorem Rep.run (h : Rep v t) (ops : List Op) (hops : ∀ op ∈ ops, op.Short) :
    ∃ v', run v ops = some v' ∧ Rep v' (ops.foldl refStep t) := by
  induction ops generalizing v t with
  | nil => exact ⟨v, rfl, h⟩
  | cons op ops ih =>
    obtain ⟨v₁, hstep, h₁⟩ := h.step op (hops op List.mem_cons_self)
    obtain ⟨v', hrun, h'⟩ := ih h₁ fun op hop ↦ hops op (List.mem_cons_of_mem _ hop)
    refine ⟨v', ?_, h'⟩
    rw [CmdLog.run, List.foldlM_cons, hstep]
    exact hrun

end Runs

/-- The newest text is in the ring and is shown in every state that is reached, if and only if the
ring never gets full. -/
theorem log_shows_iff (v : Vars) (hv : Fresh v) (ops : List Op) (hops : ∀ op ∈ ops, op.Short) :
    (∀ front, front <+: ops → ∃ v', run v front = some v' ∧ Shows v' (reference front).1) ↔
      ∀ front, front <+: ops → (reference front).1.length < logbuffLen := by
  have hstart : Rep v ([], none) := rep_empty hv.bufLength hv.logLength hv.start hv.size hv.level
  refine forall₂_congr fun front hfront ↦ ?_
  obtain ⟨v', hrun, h'⟩ := hstart.run front fun op hop ↦ hops op (hfront.subset hop)
  rw [hrun]
  constructor
  · rintro ⟨w, hw, hshows⟩
    cases hw
    exact h'.logged.shows_iff.mp hshows
  · intro hlt
    exact ⟨v', rfl, h'.logged.shows_iff.mpr hlt⟩

def emptyLog : Vars where
  buf := List.replicate bufSize 0
  msgLevel := -1
  consoleLoglevel := 3
  logBufAt := 0x81ffc000
  logBuf := List.replicate logbuffLen 0
  logStart := 0
  logSize := 0
  loggedChars := 0

theorem emptyLog_fresh : Fresh emptyLog where
  bufLength := List.length_replicate
  logLength := List.length_replicate
  level := rfl
  start := rfl
  size := rfl

theorem log_shows_iff_sample :
    (Fresh emptyLog ∧ ∀ op ∈ [Op.printk (ascii "a"), .reset, .printk (ascii "b")], op.Short) ∧
      ((∀ front, front <+: [Op.printk (ascii "a"), .reset, .printk (ascii "b")] →
          ∃ v', run emptyLog front = some v' ∧ Shows v' (reference front).1) ↔
        ∀ front, front <+: [Op.printk (ascii "a"), .reset, .printk (ascii "b")] →
          (reference front).1.length < logbuffLen) := by
  have hshort : ∀ op ∈ [Op.printk (ascii "a"), .reset, .printk (ascii "b")], op.Short := by
    simp [Op.Short, ascii, bufSize]
  exact ⟨⟨emptyLog_fresh, hshort⟩, log_shows_iff emptyLog emptyLog_fresh _ hshort⟩

theorem le_stamped_length (level : Option ℕ) (s : CStr) : s.length ≤ (stamped level s).1.length := by
  induction s generalizing level with
  | nil => exact Nat.zero_le _
  | cons c s ih =>
    rw [stamped]
    dsimp only
    rw [List.length_append, List.length_cons, List.length_cons]
    exact (Nat.succ_le_succ (ih _)).trans (Nat.le_add_left _ _)

theorem le_reference_length (n : ℕ) (line : CStr) (t : CStr × Option ℕ) :
    t.1.length + n * line.length ≤ ((List.replicate n (.printk line)).foldl refStep t).1.length := by
  induction n generalizing t with
  | zero => simp
  | succ n ih =>
    have hrest := ih (refStep t (.printk line))
    have hline := le_stamped_length t.2 line
    have hlogged : (refStep t (.printk line)).1.length = t.1.length + (stamped t.2 line).1.length :=
      List.length_append
    rw [List.replicate_succ, List.foldl_cons, Nat.succ_mul]
    omega

/-- Seventeen long lines fill the ring, and then they are not shown. -/
theorem log_not_shown : ∃ v', run emptyLog (List.replicate 17 (.printk (List.replicate 1020 0x61))) =
    some v' ∧ ¬ Shows v' (reference (List.replicate 17 (.printk (List.replicate 1020 0x61)))).1 := by
  have hstart : Rep emptyLog ([], none) :=
    rep_empty emptyLog_fresh.bufLength emptyLog_fresh.logLength rfl rfl rfl
  have hline : (List.replicate 1020 (0x61 : UInt8)).length = 1020 := List.length_replicate
  obtain ⟨v', hrun, h'⟩ := hstart.run (List.replicate 17 (.printk (List.replicate 1020 0x61))) (by
    intro op hop
    rw [List.eq_of_mem_replicate hop, Op.Short, hline]
    decide)
  refine ⟨v', hrun, ?_⟩
  have hlength := le_reference_length 17 (List.replicate 1020 0x61) ([], none)
  rw [hline] at hlength
  refine fun hshows ↦ absurd (h'.logged.shows_iff.mp hshows) (Nat.not_lt.mpr (le_trans ?_ hlength))
  decide

end UBoot.Common.CmdLog
