import Mathlib.Data.List.DropRight
import UBoot.Common.FindCmd
import UBoot.Common.ParseLine
import UBoot.Env.Layout

namespace UBoot.Common.AutoComplete

open Lib.CString Main FindCmd

/-- A command; `complete` says that it has `var_complete`. -/
structure Cmd where
  name : CStr
  complete : Bool
  name_ok : NulFree name

/-- `sizeof(cmdv)/sizeof(cmdv[0])`. -/
def maxv : ℕ := 20

/-- `cmdv`: the completions, and whether `"..."` stands behind them. -/
structure Cmdv where
  names : List CStr
  more : Bool

def Cmdv.list (v : Cmdv) : List CStr := v.names ++ if v.more then [ascii "..."] else []

def Cmdv.cons (name : CStr) (v : Cmdv) : Cmdv := { v with names := name :: v.names }

/-- The loops of `complete_cmdv`, with `n_found`. -/
def collect (p : CStr → Bool) : List Cmd → ℕ → Cmdv
  | [], _ => ⟨[], false⟩
  | cmdtp :: table, found =>
    if !p cmdtp.name then collect p table found
    else if maxv - 2 ≤ found then ⟨[], true⟩
    else (collect p table (found + 1)).cons cmdtp.name

/-- The entries in front of the empty one; `fuel` bounds their number. -/
def entries : ℕ → List UInt8 → List CStr
  | 0, _ => []
  | fuel + 1, d =>
    if first d = 0 then []
    else d.takeWhile (· ≠ 0) :: entries fuel (d.dropWhile (· ≠ 0)).tail

/-- The name in an entry, with the length `vallen`. -/
def lvalName (lval : CStr) : CStr := lval.take ((strchr lval Env.Layout.eqSign).getD lval.length)

/-- The loop of `env_complete`, with `found` and `bufsz`. -/
def envCollect (var : CStr) : List CStr → ℕ → ℕ → Cmdv
  | [], _, _ => ⟨[], false⟩
  | lval :: es, found, bufsz =>
    let name := lvalName lval
    if 0 < var.length ∧ (name.length < var.length ∨ lval.take var.length ≠ var) then
      envCollect var es found bufsz
    else if maxv - 2 ≤ found ∨ bufsz < name.length + 1 then ⟨[], true⟩
    else (envCollect var es (found + 1) (bufsz - (name.length + 1))).cons name

def envComplete (env : List UInt8) (var : CStr) : Cmdv :=
  envCollect var (entries env.length env) 0 512

def isSpace (lastChar : UInt8) : Bool := lastChar == 0 || isBlank lastChar

def varComplete (env : List UInt8) (argv : List CStr) (lastChar : UInt8) : Cmdv :=
  match argv with
  | [_] => if isSpace lastChar then envComplete env [] else ⟨[], false⟩
  | [_, var] => if isSpace lastChar then ⟨[], false⟩ else envComplete env var
  | _ => ⟨[], false⟩

def completeCmdv (table : List Cmd) (env : List UInt8) (argv : List CStr) (lastChar : UInt8) :
    Cmdv :=
  match argv with
  | [] => collect (fun _ ↦ true) table 0
  | cmd :: args =>
    if args ≠ [] ∨ isSpace lastChar then
      match findCmd Cmd.name table cmd with
      | some cmdtp => if cmdtp.complete then varComplete env argv lastChar else ⟨[], false⟩
      | none => ⟨[], false⟩
    else
      let len := cmdLen cmd
      collect (fun name ↦ len ≤ name.length && cmd.take len == name.take len) table 0

/-- `make_argv` with room for `n` more arguments. -/
def makeArgv : ℕ → CStr → List CStr
  | 0, _ => []
  | n + 1, s =>
    let s := s.dropWhile isBlank
    if s = [] then []
    else
      s.takeWhile (!isBlank ·) ::
        match s.dropWhile (!isBlank ·) with
        | [] => []
        | _ :: rest => makeArgv n rest

/-- The inner loop of `find_common_prefix`. -/
def commonLen : ℕ → CStr → CStr → ℕ
  | 0, _, _ => 0
  | len + 1, s, t => if first t ≠ first s then 0 else commonLen len s.tail t.tail + 1

def findCommonPrefix : List CStr → ℕ
  | [] => 0
  | anchor :: argv => argv.foldl (fun len t ↦ commonLen len anchor t) anchor.length

/-- `buf`, `*np` and `*colp`. -/
structure Console where
  buf : CStr
  n : ℕ
  col : ℤ

def blank : UInt8 := 0x20

/-- What is appended, if it fits. -/
def extend (cfgCbsize : ℕ) (con : Console) (s sep : CStr) : Console :=
  let k := s.length + sep.length
  if cfgCbsize - 2 ≤ con.n + k then con else ⟨con.buf ++ (s ++ sep), con.n + k, con.col + k⟩

/-- The result `none` is a read of `argv[-1]` or behind the end of a completion. -/
def cmdAutoComplete (cfgCbsize : ℕ) (cfgPrompt prompt : CStr) (table : List Cmd) (env : List UInt8)
    (con : Console) : Option (Bool × Console) :=
  if prompt ≠ cfgPrompt then some (false, con)
  else
    let lastChar := con.buf.getLast?.getD 0
    let argv := makeArgv cfgMaxargs con.buf
    let cmdv := (completeCmdv table env argv lastChar).list
    match cmdv with
    | [] => some (decide (argv.length ≤ 1), con)
    | [c] => do
      let arg ← argv.getLast?
      if c.length < arg.length then none
      else some (true, extend cfgCbsize con (c.drop arg.length) [blank])
    | c :: _ :: _ =>
      let j := findCommonPrefix cmdv
      if j = 0 then some (true, con)
      else do
        let arg ← argv.getLast?
        if arg.length < j then
          some (true, extend cfgCbsize con ((c.drop arg.length).take (j - arg.length)) [])
        else some (true, con)

/-- The word under the cursor. -/
def word (line : CStr) : CStr := line.rtakeWhile (!isBlank ·)

/-- The line is as it was, or longer by the rest of an offered completion. -/
structure Extends (cfgCbsize : ℕ) (names : List CStr) (con con' : Console) : Prop where
  line : ∃ e, con'.buf = con.buf ++ e ∧ (e = [] ∨ ∃ d ∈ names, word con.buf ++ e <+: d ++ [blank])
  length : con'.n = con'.buf.length
  lt : con'.n + 2 < cfgCbsize

/-- Where the completion leads: the only candidate with a blank behind it, or what several have in
common. -/
def target (cmdv : List CStr) : CStr :=
  match cmdv with
  | [] => []
  | [c] => c ++ [blank]
  | c :: _ :: _ => c.take (findCommonPrefix cmdv)

/-- The completion stops short: nothing to complete, or no room for it. -/
def Idle (cfgCbsize : ℕ) (con : Console) (k : ℕ) (target : CStr) : Prop :=
  target.length ≤ k ∨ cfgCbsize ≤ con.n + (target.length - k) + 2

/-- The last argument is the word under the cursor and the beginning of the target, or there is no
word and the target goes on behind the length of the last argument as it begins. -/
def Fits (arg target : CStr) (lastChar : UInt8) : Prop :=
  (isBlank lastChar = false ∧ arg <+: target) ∨
    (isBlank lastChar = true ∧ target.drop arg.length <+: target)

def HoldsWhen (cfgCbsize : ℕ) (cfgPrompt prompt : CStr) (table : List Cmd) (env : List UInt8)
    (con : Console) : Prop :=
  let lastChar := con.buf.getLast?.getD 0
  let argv := makeArgv cfgMaxargs con.buf
  let cmdv := completeCmdv table env argv lastChar
  prompt ≠ cfgPrompt ∨ cmdv.list = [] ∨ target cmdv.list = [] ∨
    ∃ arg ∈ argv.getLast?, (cmdv.list.length = 1 → arg.length < (target cmdv.list).length) ∧
      (Idle cfgCbsize con arg.length (target cmdv.list) ∨
        cmdv.names ≠ [] ∧ Fits arg (target cmdv.list) lastChar)

section Prefix

variable {s t : CStr}

theorem commonLen_le (len : ℕ) (s t : CStr) : commonLen len s t ≤ len := by
  induction len generalizing s t with
  | zero => exact le_rfl
  | succ len ih =>
    rw [commonLen]
    split_ifs
    · exact Nat.zero_le _
    · exact Nat.succ_le_succ (ih s.tail t.tail)

theorem take_commonLen {len : ℕ} (hlen : len ≤ s.length) (hs : NulFree s) :
    s.take (commonLen len s t) <+: t := by
  induction len generalizing s t with
  | zero => exact List.nil_prefix
  | succ len ih =>
    obtain _ | ⟨c, s⟩ := s
    · exact absurd hlen (by simp)
    have hc : c ≠ 0 := hs c List.mem_cons_self
    rw [commonLen]
    split_ifs with hne
    · exact List.nil_prefix
    · obtain _ | ⟨d, t⟩ := t
      · exact absurd (not_not.mp hne).symm hc
      · have hcd : d = c := not_not.mp hne
        rw [List.take_succ_cons, hcd]
        refine List.cons_prefix_cons.mpr ⟨rfl, ih (Nat.le_of_succ_le_succ hlen) fun x hx ↦ ?_⟩
        exact hs x (List.mem_cons_of_mem _ hx)

theorem foldl_commonLen {anchor : CStr} (hanchor : NulFree anchor) (argv : List CStr) {len : ℕ}
    (hlen : len ≤ anchor.length) :
    argv.foldl (fun len t ↦ commonLen len anchor t) len ≤ len ∧
      ∀ t ∈ argv, anchor.take (argv.foldl (fun len t ↦ commonLen len anchor t) len) <+: t := by
  induction argv generalizing len with
  | nil => exact ⟨le_rfl, fun t ht ↦ absurd ht List.not_mem_nil⟩
  | cons t argv ih =>
    have hle := commonLen_le len anchor t
    obtain ⟨hfold, hrest⟩ := ih (hle.trans hlen)
    refine ⟨hfold.trans hle, List.forall_mem_cons.mpr ⟨?_, hrest⟩⟩
    have htake := List.take_prefix_take_left (l := anchor) hfold
    exact htake.trans (take_commonLen hlen hanchor)

/-- What the candidates have in common is a prefix of each. -/
theorem findCommonPrefix_spec {c : CStr} (hc : NulFree c) (cmdv : List CStr) :
    findCommonPrefix (c :: cmdv) ≤ c.length ∧
      ∀ d ∈ c :: cmdv, c.take (findCommonPrefix (c :: cmdv)) <+: d := by
  obtain ⟨hle, hall⟩ := foldl_commonLen hc cmdv (le_refl c.length)
  exact ⟨hle, List.forall_mem_cons.mpr ⟨List.take_prefix _ _, hall⟩⟩

end Prefix

section Words

variable {line arg : CStr}

theorem word_append_blank (a : CStr) {c : UInt8} (hc : isBlank c = true) (b : CStr) :
    word (a ++ c :: b) = word b := by
  induction b using List.reverseRecOn with
  | nil => exact List.rtakeWhile_concat_neg _ _ _ (by simp [hc])
  | append_singleton b x ih =>
    have hassoc : a ++ c :: (b ++ [x]) = (a ++ c :: b) ++ [x] := by simp
    rw [hassoc, word, word, List.rtakeWhile_concat, List.rtakeWhile_concat]
    split_ifs
    · exact congrArg (· ++ [x]) ih
    · rfl

theorem word_of_blank (h : isBlank (line.getLast?.getD 0) = true) : word line = [] := by
  rw [word, List.rtakeWhile_eq_nil_iff]
  intro hne
  rw [List.getLast?_eq_getLast_of_ne_nil hne, Option.getD_some] at h
  simp [h]

theorem word_gap {gap w : CStr} (hgap : ∀ c ∈ gap, isBlank c = true)
    (hw : ∀ c ∈ w, isBlank c = false) : word (gap ++ w) = w := by
  have hself : word w = w := List.rtakeWhile_eq_self_iff.mpr fun c hc ↦ by simp [hw c hc]
  rcases List.eq_nil_or_concat' gap with rfl | ⟨g, c, rfl⟩
  · exact hself
  · rw [List.append_assoc, List.singleton_append, word_append_blank g (hgap c (by simp)), hself]

theorem makeArgv_nil (n : ℕ) : makeArgv n [] = [] := by
  cases n <;> rfl

theorem makeArgv_word (n : ℕ) {gap w tail : CStr} (hgap : ∀ c ∈ gap, isBlank c = true)
    (hne : w ≠ []) (hw : ∀ c ∈ w, isBlank c = false)
    (htail : tail = [] ∨ ∃ c rest, tail = c :: rest ∧ isBlank c = true) :
    makeArgv (n + 1) (gap ++ (w ++ tail)) = w :: makeArgv n tail.tail := by
  have hdrop : (gap ++ (w ++ tail)).dropWhile isBlank = w ++ tail := by
    rw [List.dropWhile_append_of_pos hgap]
    obtain ⟨c, w, rfl⟩ := List.exists_cons_of_ne_nil hne
    exact List.dropWhile_cons_of_neg (by simp [hw c])
  have htakeWhile : tail.takeWhile (!isBlank ·) = [] := by
    rcases htail with rfl | ⟨c, rest, rfl, hc⟩
    · rfl
    · exact List.takeWhile_cons_of_neg (by simp [hc])
  have hdropWhile : tail.dropWhile (!isBlank ·) = tail := by
    rcases htail with rfl | ⟨c, rest, rfl, hc⟩
    · rfl
    · exact List.dropWhile_cons_of_neg (by simp [hc])
  have hpos : ∀ c ∈ w, (!isBlank c) = true := fun c hc ↦ by simp [hw c hc]
  rw [makeArgv, hdrop, if_neg (by simp [hne]), List.takeWhile_append_of_pos hpos,
    List.dropWhile_append_of_pos hpos, htakeWhile, hdropWhile, List.append_nil]
  cases tail with
  | nil => rw [List.tail_nil, makeArgv_nil]
  | cons c rest => rfl

theorem makeArgv_ne_nil {n : ℕ} (hn : 0 < n) {c : UInt8} (hc : c ∈ line)
    (hblank : isBlank c = false) : makeArgv n line ≠ [] := by
  obtain ⟨n, rfl⟩ := Nat.exists_eq_add_one.mpr hn
  rcases ParseLine.line_cases line with hall | ⟨gap, w, tail, rfl, hgap, hne, hw, htail⟩
  · exact absurd (hall c hc) (by simp [hblank])
  · rw [makeArgv_word n hgap hne hw htail]
    exact List.cons_ne_nil _ _

/-- With room for one more argument, the last one is the word under the cursor. -/
theorem word_eq {n : ℕ} (hroom : (makeArgv n line).length < n)
    (hlast : isBlank (line.getLast?.getD 0) = false) (harg : arg ∈ (makeArgv n line).getLast?) :
    word line = arg := by
  induction n generalizing line with
  | zero => exact absurd hroom (Nat.not_lt_zero _)
  | succ n ih =>
    rcases ParseLine.line_cases line with hall | ⟨gap, w, tail, rfl, hgap, hne, hw, htail⟩
    · have hdrop : line.dropWhile isBlank = [] := List.dropWhile_eq_nil_iff.mpr hall
      rw [makeArgv, hdrop] at harg
      cases harg
    · rw [makeArgv_word n hgap hne hw htail] at hroom harg
      rcases htail with rfl | ⟨c, rest, rfl, hc⟩
      · rw [List.tail_nil, makeArgv_nil, List.getLast?_singleton] at harg
        cases harg
        rw [List.append_nil, word_gap hgap hw]
      · rw [List.tail_cons, List.length_cons] at hroom
        rw [List.tail_cons] at harg
        rw [← List.append_assoc] at hlast ⊢
        rw [word_append_blank (gap ++ w) hc]
        rw [List.getLast?_append_of_ne_nil _ (List.cons_ne_nil _ _)] at hlast
        rcases List.eq_nil_or_concat' rest with rfl | ⟨r, x, rfl⟩
        · rw [List.getLast?_singleton, Option.getD_some, hc] at hlast
          cases hlast
        · have hx : (c :: (r ++ [x])).getLast? = some x :=
            List.getLast?_concat (l := c :: r)
          rw [hx, Option.getD_some] at hlast
          have hmem : x ∈ r ++ [x] := List.mem_concat_self
          have hargv := makeArgv_ne_nil (n := n) (by omega) hmem hlast
          rw [List.getLast?_cons_of_ne_nil hargv] at harg
          rw [← Option.getD_some (a := x) (b := 0), ← List.getLast?_concat (l := r)] at hlast
          exact ih (by omega) hlast harg

end Words

section Candidates

variable {table : List Cmd} {env : List UInt8} {argv : List CStr} {lastChar : UInt8}

theorem collect_nulFree (p : CStr → Bool) (table : List Cmd) (found : ℕ) :
    ∀ name ∈ (collect p table found).names, NulFree name := by
  induction table generalizing found with
  | nil => exact fun name h ↦ absurd h List.not_mem_nil
  | cons cmdtp table ih =>
    rw [collect]
    split_ifs
    · exact ih found
    · exact fun name h ↦ absurd h List.not_mem_nil
    · exact List.forall_mem_cons.mpr ⟨cmdtp.name_ok, ih (found + 1)⟩

theorem entries_nulFree (fuel : ℕ) (d : List UInt8) : ∀ e ∈ entries fuel d, NulFree e := by
  induction fuel generalizing d with
  | zero => exact fun e h ↦ absurd h List.not_mem_nil
  | succ fuel ih =>
    rw [entries]
    split_ifs
    · exact fun e h ↦ absurd h List.not_mem_nil
    · refine List.forall_mem_cons.mpr ⟨fun c hc ↦ ?_, ih _⟩
      simpa using List.mem_takeWhile_imp hc

theorem envCollect_nulFree (var : CStr) {es : List CStr} (hes : ∀ e ∈ es, NulFree e)
    (found bufsz : ℕ) : ∀ name ∈ (envCollect var es found bufsz).names, NulFree name := by
  induction es generalizing found bufsz with
  | nil => exact fun name h ↦ absurd h List.not_mem_nil
  | cons e es ih =>
    obtain ⟨he, hrest⟩ := List.forall_mem_cons.mp hes
    rw [envCollect]
    split_ifs
    · exact ih hrest found bufsz
    · exact fun name h ↦ absurd h List.not_mem_nil
    · exact List.forall_mem_cons.mpr ⟨fun c hc ↦ he c (List.mem_of_mem_take hc), ih hrest _ _⟩

theorem varComplete_nulFree : ∀ name ∈ (varComplete env argv lastChar).names, NulFree name := by
  have henv (var : CStr) : ∀ name ∈ (envComplete env var).names, NulFree name :=
    envCollect_nulFree var (entries_nulFree _ _) 0 512
  have hnone : ∀ name ∈ (⟨[], false⟩ : Cmdv).names, NulFree name :=
    fun name h ↦ absurd h List.not_mem_nil
  obtain _ | ⟨a, _ | ⟨var, _ | ⟨b, args⟩⟩⟩ := argv
  · exact hnone
  · rw [varComplete]
    split_ifs
    · exact henv []
    · exact hnone
  · rw [varComplete]
    split_ifs
    · exact hnone
    · exact henv var
  · exact hnone

theorem completeCmdv_nulFree (table : List Cmd) (env : List UInt8) (argv : List CStr)
    (lastChar : UInt8) : ∀ name ∈ (completeCmdv table env argv lastChar).names, NulFree name := by
  have hnone : ∀ name ∈ (⟨[], false⟩ : Cmdv).names, NulFree name :=
    fun name h ↦ absurd h List.not_mem_nil
  cases argv with
  | nil => exact collect_nulFree _ table 0
  | cons cmd args =>
    rw [completeCmdv]
    split_ifs
    · cases findCmd Cmd.name table cmd with
      | none => exact hnone
      | some cmdtp =>
        dsimp only
        split_ifs
        · exact varComplete_nulFree
        · exact hnone
    · exact collect_nulFree _ table 0

/-- Behind the second argument nothing is offered. -/
theorem length_le_two (h : (completeCmdv table env argv lastChar).list ≠ []) : argv.length ≤ 2 := by
  by_contra hlt
  apply h
  obtain _ | ⟨a, _ | ⟨b, _ | ⟨c, args⟩⟩⟩ := argv
  · exact absurd (Nat.zero_le 2) hlt
  · exact absurd (by simp) hlt
  · exact absurd (by simp) hlt
  · rw [completeCmdv, if_pos (.inl (List.cons_ne_nil _ _))]
    cases findCmd Cmd.name table a with
    | none => rfl
    | some cmdtp =>
      dsimp only
      split_ifs <;> rfl

theorem names_of_list {v : Cmdv} {c d : CStr} {rest : List CStr} (h : v.list = c :: d :: rest) :
    ∃ ns, v.names = c :: ns := by
  obtain ⟨names, more⟩ := v
  cases names with
  | nil => cases more <;> cases h
  | cons c' ns =>
    obtain ⟨rfl, -⟩ := List.cons_eq_cons.mp h
    exact ⟨ns, rfl⟩

end Candidates

section Extension

variable {cfgCbsize : ℕ} {names : List CStr} {con : Console} {arg t : CStr}

theorem Extends.refl (names : List CStr) (hn : con.n = con.buf.length)
    (hlt : con.n + 2 < cfgCbsize) : Extends cfgCbsize names con con :=
  ⟨⟨[], (List.append_nil _).symm, .inl rfl⟩, hn, hlt⟩

theorem extends_extend_iff (hn : con.n = con.buf.length) (hlt : con.n + 2 < cfgCbsize)
    (s sep : CStr) :
    Extends cfgCbsize names con (extend cfgCbsize con s sep) ↔
      cfgCbsize ≤ con.n + (s ++ sep).length + 2 ∨ s ++ sep = [] ∨
        ∃ d ∈ names, word con.buf ++ (s ++ sep) <+: d ++ [blank] := by
  rw [extend, List.length_append]
  split_ifs with hroom
  · exact iff_of_true (.refl names hn hlt) (.inl (by omega))
  · constructor
    · intro h
      obtain ⟨e, he, hoffered⟩ := h.line
      rw [List.append_cancel_left_eq] at he
      exact .inr (he ▸ hoffered)
    · rintro (h | h)
      · omega
      · refine ⟨⟨s ++ sep, rfl, h⟩, ?_, by dsimp only; omega⟩
        dsimp only
        rw [List.length_append, List.length_append, hn]

theorem offered_iff (hnames : ∀ d ∈ names, t <+: d ++ [blank]) {w : CStr} {k : ℕ}
    (hw : w.length ≤ k) (hk : k ≤ t.length) :
    (∃ d ∈ names, w ++ t.drop k <+: d ++ [blank]) ↔ names ≠ [] ∧ w ++ t.drop k <+: t := by
  constructor
  · rintro ⟨d, hd, hpre⟩
    refine ⟨List.ne_nil_of_mem hd, List.prefix_of_prefix_length_le hpre (hnames d hd) ?_⟩
    rw [List.length_append, List.length_drop]
    omega
  · rintro ⟨hne, hpre⟩
    obtain ⟨d, hd⟩ := List.exists_mem_of_ne_nil names hne
    exact ⟨d, hd, hpre.trans (hnames d hd)⟩

theorem fits_iff {line : CStr} (hword : isBlank (line.getLast?.getD 0) = false → word line = arg) :
    word line ++ t.drop arg.length <+: t ↔ Fits arg t (line.getLast?.getD 0) := by
  rw [Fits]
  cases hblank : isBlank (line.getLast?.getD 0) with
  | false =>
    rw [hword hblank, or_iff_left (by simp), and_iff_right rfl]
    constructor
    · exact (List.prefix_append _ _).trans
    · rintro ⟨r, rfl⟩
      exact ⟨[], by rw [List.drop_left, List.append_nil]⟩
  | true =>
    rw [word_of_blank hblank, or_iff_right (by simp), and_iff_right rfl, List.nil_append]

/-- The right extension and the right end of it come together. -/
theorem extends_target_iff (hn : con.n = con.buf.length) (hlt : con.n + 2 < cfgCbsize)
    (hnames : ∀ d ∈ names, t <+: d ++ [blank]) (hk : arg.length < t.length)
    (hword : isBlank (con.buf.getLast?.getD 0) = false → word con.buf = arg) {s sep : CStr}
    (hs : s ++ sep = t.drop arg.length) :
    Extends cfgCbsize names con (extend cfgCbsize con s sep) ↔
      Idle cfgCbsize con arg.length t ∨
        names ≠ [] ∧ Fits arg t (con.buf.getLast?.getD 0) := by
  have hle : (word con.buf).length ≤ arg.length := by
    cases hblank : isBlank (con.buf.getLast?.getD 0) with
    | false => rw [hword hblank]
    | true =>
      rw [word_of_blank hblank]
      exact Nat.zero_le _
  have hne : t.drop arg.length ≠ [] := by
    rw [ne_eq, List.drop_eq_nil_iff]
    omega
  rw [extends_extend_iff hn hlt, hs, or_iff_right hne, offered_iff hnames hle hk.le,
    fits_iff hword, Idle, List.length_drop, or_iff_right (a := t.length ≤ arg.length) (by omega)]

end Extension

section Completion

variable {cfgCbsize : ℕ} {con : Console}

theorem exists_some_iff {P : Console → Prop} {rc : Bool} {con : Console} :
    (∃ rc' con', some (rc, con) = some (rc', con') ∧ P con') ↔ P con := by
  constructor
  · rintro ⟨rc', con', heq, h⟩
    cases heq
    exact h
  · exact fun h ↦ ⟨rc, con, rfl, h⟩

theorem not_exists_none {P : Console → Prop} :
    ¬ ∃ (rc : Bool) (con : Console), none = some (rc, con) ∧ P con := by
  rintro ⟨rc, con, heq, -⟩
  cases heq

theorem exists_bind_iff {P : Console → Prop} {Q : CStr → Prop} {last : Option CStr}
    {f : CStr → Option (Bool × Console)}
    (h : ∀ arg ∈ last, (∃ rc con, f arg = some (rc, con) ∧ P con) ↔ Q arg) :
    (∃ rc con, (last >>= f) = some (rc, con) ∧ P con) ↔ ∃ arg ∈ last, Q arg := by
  cases last with
  | none =>
    refine iff_of_false not_exists_none ?_
    rintro ⟨arg, harg, -⟩
    cases harg
  | some arg =>
    refine (h arg rfl).trans ⟨fun hQ ↦ ⟨arg, rfl, hQ⟩, ?_⟩
    rintro ⟨arg', harg, hQ⟩
    cases harg
    exact hQ

/-- The only candidate, with a blank behind it. -/
theorem extends_only_iff (hn : con.n = con.buf.length) (hlt : con.n + 2 < cfgCbsize)
    {names : List CStr} {c arg : CStr} (hnames : ∀ d ∈ names, d = c)
    (hword : isBlank (con.buf.getLast?.getD 0) = false → word con.buf = arg) :
    (∃ rc con', (if c.length < arg.length then none
          else some (true, extend cfgCbsize con (c.drop arg.length) [blank])) = some (rc, con') ∧
        Extends cfgCbsize names con con') ↔
      arg.length < (target [c]).length ∧ (Idle cfgCbsize con arg.length (target [c]) ∨
        names ≠ [] ∧ Fits arg (target [c]) (con.buf.getLast?.getD 0)) := by
  have htarget : (target [c]).length = c.length + 1 := List.length_append
  by_cases hk : c.length < arg.length
  · rw [if_pos hk]
    exact iff_of_false not_exists_none fun h ↦ by omega
  · have hoffered : ∀ d ∈ names, target [c] <+: d ++ [blank] := by
      intro d hd
      rw [hnames d hd]
      exact List.prefix_rfl
    have hdrop : c.drop arg.length ++ [blank] = (target [c]).drop arg.length :=
      (List.drop_append_of_le_length (not_lt.mp hk)).symm
    rw [if_neg hk, exists_some_iff, extends_target_iff hn hlt hoffered (by omega) hword hdrop]
    exact (and_iff_right (by omega)).symm

/-- What several candidates have in common. -/
theorem extends_several_iff (hn : con.n = con.buf.length) (hlt : con.n + 2 < cfgCbsize)
    {names : List CStr} {c d arg : CStr} {rest : List CStr} (hfree : NulFree c)
    (hnames : ∀ e ∈ names, e ∈ c :: d :: rest)
    (hword : isBlank (con.buf.getLast?.getD 0) = false → word con.buf = arg) :
    (∃ rc con', (if arg.length < findCommonPrefix (c :: d :: rest) then
            some (true, extend cfgCbsize con
              ((c.drop arg.length).take (findCommonPrefix (c :: d :: rest) - arg.length)) [])
          else some (true, con)) = some (rc, con') ∧
        Extends cfgCbsize names con con') ↔
      Idle cfgCbsize con arg.length (target (c :: d :: rest)) ∨
        names ≠ [] ∧ Fits arg (target (c :: d :: rest)) (con.buf.getLast?.getD 0) := by
  obtain ⟨hle, hall⟩ := findCommonPrefix_spec hfree (d :: rest)
  have htarget : (target (c :: d :: rest)).length = findCommonPrefix (c :: d :: rest) :=
    List.length_take_of_le hle
  by_cases hk : arg.length < findCommonPrefix (c :: d :: rest)
  · have hoffered : ∀ e ∈ names, target (c :: d :: rest) <+: e ++ [blank] := fun e he ↦
      (hall e (hnames e he)).trans (List.prefix_append _ _)
    have hdrop : (c.drop arg.length).take (findCommonPrefix (c :: d :: rest) - arg.length) ++ [] =
        (target (c :: d :: rest)).drop arg.length := by
      rw [List.append_nil, target, List.drop_take]
    rw [if_pos hk, exists_some_iff, extends_target_iff hn hlt hoffered (by omega) hword hdrop]
  · rw [if_neg hk]
    have hidle : Idle cfgCbsize con arg.length (target (c :: d :: rest)) :=
      .inl (htarget.trans_le (not_lt.mp hk))
    exact iff_of_true ⟨true, con, rfl, .refl names hn hlt⟩ (.inl hidle)

/-- Completion only extends the word under the cursor exactly when there is no candidate or nothing
in common, or the last argument is no longer than the only candidate, and the rest of the target
does not fit into the line or continues the word. -/
theorem auto_complete_iff (cfgPrompt prompt : CStr) (table : List Cmd) (env : List UInt8)
    (hn : con.n = con.buf.length) (hlt : con.n + 2 < cfgCbsize) :
    (∃ rc con', cmdAutoComplete cfgCbsize cfgPrompt prompt table env con = some (rc, con') ∧
        Extends cfgCbsize (completeCmdv table env (makeArgv cfgMaxargs con.buf)
          (con.buf.getLast?.getD 0)).names con con') ↔
      HoldsWhen cfgCbsize cfgPrompt prompt table env con := by
  rw [cmdAutoComplete, HoldsWhen]
  dsimp only
  have hsame (names : List CStr) (rc : Bool) : ∃ rc' con', some (rc, con) = some (rc', con') ∧
      Extends cfgCbsize names con con' := ⟨rc, con, rfl, .refl names hn hlt⟩
  by_cases hprompt : prompt ≠ cfgPrompt
  · rw [if_pos hprompt]
    exact iff_of_true (hsame _ _) (.inl hprompt)
  rw [if_neg hprompt, or_iff_right hprompt]
  have hroom (hlist : (completeCmdv table env (makeArgv cfgMaxargs con.buf)
        (con.buf.getLast?.getD 0)).list ≠ []) (arg : CStr)
      (harg : arg ∈ (makeArgv cfgMaxargs con.buf).getLast?)
      (hlast : isBlank (con.buf.getLast?.getD 0) = false) : word con.buf = arg := by
    have htwo := length_le_two hlist
    refine word_eq (n := cfgMaxargs) ?_ hlast harg
    rw [cfgMaxargs] at *
    omega
  have hfree := completeCmdv_nulFree table env (makeArgv cfgMaxargs con.buf)
    (con.buf.getLast?.getD 0)
  generalize completeCmdv table env (makeArgv cfgMaxargs con.buf) (con.buf.getLast?.getD 0) = v
    at hroom hfree ⊢
  have hnames : ∀ d ∈ v.names, d ∈ v.list := fun d hd ↦ List.mem_append_left _ hd
  obtain ⟨list, hlist⟩ : ∃ list, v.list = list := ⟨_, rfl⟩
  rw [hlist] at hroom hnames ⊢
  obtain _ | ⟨c, _ | ⟨d, rest⟩⟩ := list
  · exact iff_of_true (hsame _ _) (.inl rfl)
  · have hword := hroom (List.cons_ne_nil _ _)
    have hne : target [c] ≠ [] := List.append_ne_nil_of_right_ne_nil _ (List.cons_ne_nil _ _)
    rw [or_iff_right (List.cons_ne_nil _ _), or_iff_right hne]
    refine exists_bind_iff fun arg harg ↦ ?_
    rw [List.length_singleton, forall_prop_of_true rfl]
    exact extends_only_iff hn hlt (fun d hd ↦ List.mem_singleton.mp (hnames d hd)) (hword arg harg)
  · have hword := hroom (List.cons_ne_nil _ _)
    obtain ⟨ns, hns⟩ := names_of_list hlist
    have hc : NulFree c := hfree c (hns ▸ List.mem_cons_self)
    have htarget : (target (c :: d :: rest)).length = findCommonPrefix (c :: d :: rest) :=
      List.length_take_of_le (findCommonPrefix_spec hc (d :: rest)).1
    rw [or_iff_right (List.cons_ne_nil _ _)]
    dsimp only
    by_cases hj : findCommonPrefix (c :: d :: rest) = 0
    · rw [if_pos hj]
      exact iff_of_true (hsame _ _) (.inl (List.eq_nil_of_length_eq_zero (htarget.trans hj)))
    · rw [if_neg hj, or_iff_right fun h ↦ hj (by rw [← htarget, h]; rfl)]
      refine exists_bind_iff fun arg harg ↦ ?_
      rw [and_iff_right fun hone ↦ absurd hone (by simp)]
      exact extends_several_iff hn hlt hc hnames (hword arg harg)

end Completion

def printenv : Cmd := ⟨ascii "printenv", true, by decide⟩

def cp : Cmd := ⟨ascii "cp", false, by decide⟩

def typed (s : String) : Console := ⟨ascii s, (ascii s).length, (ascii s).length⟩

/-- A part of a command name. -/
theorem auto_complete_iff_prin :
    (∃ rc con', cmdAutoComplete 256 (ascii "> ") (ascii "> ") [cp, printenv] [0, 0] (typed "prin") =
        some (rc, con') ∧
        Extends 256 (completeCmdv [cp, printenv] [0, 0] (makeArgv cfgMaxargs (typed "prin").buf)
          ((typed "prin").buf.getLast?.getD 0)).names (typed "prin") con') ↔
      HoldsWhen 256 (ascii "> ") (ascii "> ") [cp, printenv] [0, 0] (typed "prin") :=
  auto_complete_iff _ _ _ _ rfl (by decide)

/-- The size suffix makes the word longer than the command. -/
theorem auto_complete_suffix :
    ¬ ∃ rc con', cmdAutoComplete 256 (ascii "> ") (ascii "> ") [cp, printenv] [0, 0]
        (typed "cp.b") = some (rc, con') ∧
        Extends 256 (completeCmdv [cp, printenv] [0, 0] (makeArgv cfgMaxargs (typed "cp.b").buf)
          ((typed "cp.b").buf.getLast?.getD 0)).names (typed "cp.b") con' := by
  rintro ⟨rc, con', h, -⟩
  have hsome : (cmdAutoComplete 256 (ascii "> ") (ascii "> ") [cp, printenv] [0, 0]
      (typed "cp.b")).isSome = true := by
    rw [h]
    rfl
  exact absurd hsome (by decide +kernel)

end UBoot.Common.AutoComplete
